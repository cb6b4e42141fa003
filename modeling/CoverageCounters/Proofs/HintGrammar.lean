import Mathlib.Data.List.TakeWhile
import CoverageCounters.Hint

/-!
Which comments are hints. The scanner that trims a text, matches words and drops the blanks between them
accepts exactly the texts of a grammar: blanks, `istanbul`, blanks, `ignore`, blanks, a keyword, and then
the end of the text or a character that is part of no word. Since blanks are part of no word, how many
there are and which makes no difference.
-/

namespace CoverageCounters

def Blanks (cs : List Char) : Prop := ∀ c ∈ cs, isBlank c = true

namespace Blanks

variable {w w' : List Char}

theorem nil : Blanks [] := by simp [Blanks]

theorem append (h : Blanks w) (h' : Blanks w') : Blanks (w ++ w') := by
  intro c hc
  rcases List.mem_append.mp hc with hc | hc
  · exact h c hc
  · exact h' c hc

theorem dropWhile_append (h : Blanks w) (cs : List Char) :
    (w ++ cs).dropWhile isBlank = cs.dropWhile isBlank :=
  List.dropWhile_append_of_pos h

theorem dropTail_append (h : Blanks w) (cs : List Char) :
    dropTail isBlank (cs ++ w) = dropTail isBlank cs := by
  have hr : Blanks w.reverse := fun c hc => h c (by simpa using hc)
  simp [dropTail,hr.dropWhile_append]

end Blanks

/-- Blanks are part of no word: no range of the one table meets a range of the other. -/
theorem isWord_of_isBlank {c : Char} (h : isBlank c = true) : isWord c = false := by
  have ht : ∀ r ∈ blankRanges, ∀ w ∈ wordRanges, r.2 < w.1 ∨ w.2 < r.1 := by decide +kernel
  obtain ⟨r,hr,hc⟩ := List.any_eq_true.mp h
  simp only [Bool.and_eq_true,decide_eq_true_eq] at hc
  rw [isWord,List.any_eq_false]
  intro w hw
  have hd := ht r hr w hw
  simp only [Bool.and_eq_true,decide_eq_true_eq]
  omega

/-! ### Trimming -/

section Trimming

variable {cs w w' : List Char}

theorem blanks_takeWhile (cs : List Char) : Blanks (cs.takeWhile isBlank) :=
  fun _ hc => List.all_eq_true.mp List.all_takeWhile _ hc

theorem exists_dropTail (cs : List Char) :
    ∃ trail, Blanks trail ∧ cs = dropTail isBlank cs ++ trail := by
  refine ⟨(cs.reverse.takeWhile isBlank).reverse,fun c hc => ?_,?_⟩
  · exact blanks_takeWhile _ c (by simpa using hc)
  · rw [dropTail,← List.reverse_append,List.takeWhile_append_dropWhile,List.reverse_reverse]

theorem trimBlank_between (h : Blanks w) (h' : Blanks w') (cs : List Char) :
    trimBlank (w ++ cs ++ w') = trimBlank cs := by
  rw [trimBlank,List.append_assoc,h.dropWhile_append,List.dropWhile_append,trimBlank]
  by_cases hc : Blanks cs
  · simp [List.dropWhile_eq_nil_iff.mpr hc,List.dropWhile_eq_nil_iff.mpr h']
  · rw [Blanks,← List.dropWhile_eq_nil_iff] at hc
    simp [hc,h'.dropTail_append]

/-- A text whose first character, if it has one, is no blank. -/
def StartsClear (cs : List Char) : Prop := ∀ c ∈ cs.head?, isBlank c = false

theorem startsClear_append {word : List Char} (hne : word ≠ []) (hb : word.any isBlank = false)
    (tail : List Char) : StartsClear (word ++ tail) := by
  obtain ⟨c,word,rfl⟩ := List.exists_cons_of_ne_nil hne
  rw [List.any_cons,Bool.or_eq_false_iff] at hb
  intro d hd
  cases hd
  exact hb.1

theorem startsClear_dropWhile (cs : List Char) : StartsClear (cs.dropWhile isBlank) := by
  intro c hc
  have h := List.head?_dropWhile_not isBlank cs
  rw [Option.mem_def.mp hc] at h
  exact h

theorem StartsClear.dropWhile_eq (h : StartsClear cs) : cs.dropWhile isBlank = cs := by
  cases cs with
  | nil => rfl
  | cons c cs => simp [h c (by simp)]

theorem dropTail_append {xs : List Char} (h : StartsClear xs.reverse) (ys : List Char) :
    dropTail isBlank (xs ++ ys) = xs ++ dropTail isBlank ys := by
  have hx : xs.reverse.dropWhile isBlank = xs.reverse := h.dropWhile_eq
  rw [dropTail,List.reverse_append,List.dropWhile_append,dropTail]
  by_cases hy : ys.reverse.dropWhile isBlank = []
  · simp [hy,hx]
  · simp [hy]

end Trimming

namespace Hint

/-! ### The grammar -/

/-- A text that says to ignore something, with a keyword that says what. -/
def Reads (keyword : String) (text : List Char) : Prop :=
  ∃ lead gap gap' tail, Blanks lead ∧ Blanks gap ∧ gap ≠ [] ∧ Blanks gap' ∧ gap' ≠ [] ∧
    (Blanks tail ∨ ∃ c rest, tail = c :: rest ∧ isWord c = false) ∧
    text = lead ++ "istanbul".toList ++ gap ++ "ignore".toList ++ gap' ++ keyword.toList ++ tail

/-- The keywords of the hints, and that of the hint for a whole file. -/
def keywords : List String := "file" :: all.map keyword

variable {kw kw' : String} {text rest tail : List Char}

theorem mem_keywords (k : Hint) : k.keyword ∈ keywords := by cases k <;> decide

theorem letters_of_keyword (h : kw ∈ keywords) :
    kw.toList ≠ [] ∧ kw.toList.any isBlank = false := by
  have hl : ∀ kw ∈ keywords, kw.toList ≠ [] ∧ kw.toList.any isBlank = false := by decide
  exact hl kw h

theorem startsClear_keyword (h : kw ∈ keywords) (tail : List Char) :
    StartsClear (kw.toList ++ tail) :=
  startsClear_append (letters_of_keyword h).1 (letters_of_keyword h).2 tail

/-- The first letter tells the keywords apart. -/
theorem keyword_eq_of_append (h : kw ∈ keywords) (h' : kw' ∈ keywords) {tail tail' : List Char}
    (he : kw.toList ++ tail = kw'.toList ++ tail') : kw = kw' := by
  have ht : ∀ kw ∈ keywords, ∀ kw' ∈ keywords,
      kw.toList.head? = kw'.toList.head? → kw = kw' := by decide
  have hs : ∀ kw ∈ keywords, kw.toList.head?.isSome = true := by decide
  obtain ⟨c,hc⟩ := Option.isSome_iff_exists.mp (hs kw h)
  obtain ⟨d,hd⟩ := Option.isSome_iff_exists.mp (hs kw' h')
  have hh := congrArg List.head? he
  simp only [List.head?_append,hc,hd,Option.some_or] at hh
  exact ht kw h kw' h' (by rw [hc,hd,hh])

theorem afterBlanks?_eq_some_iff :
    afterBlanks? text = some rest ↔
      ∃ gap, Blanks gap ∧ gap ≠ [] ∧ text = gap ++ rest ∧ StartsClear rest := by
  constructor
  · intro h
    cases text with
    | nil => simp [afterBlanks?] at h
    | cons c cs =>
      by_cases hc : isBlank c = true
      · simp only [afterBlanks?,if_pos hc,Option.some.injEq] at h
        subst h
        refine ⟨c :: cs.takeWhile isBlank,?_,by simp,by simp,startsClear_dropWhile cs⟩
        intro d hd
        rcases List.mem_cons.mp hd with rfl | hd
        · exact hc
        · exact blanks_takeWhile cs d hd
      · simp [afterBlanks?,hc] at h
  · rintro ⟨gap,hb,hne,rfl,hr⟩
    obtain ⟨c,cs,rfl⟩ := List.exists_cons_of_ne_nil hne
    have hcs : Blanks cs := fun d hd => hb d (by simp [hd])
    simp [afterBlanks?,hb c (by simp),hcs.dropWhile_append,hr.dropWhile_eq]

theorem afterIgnore?_eq_some_iff :
    afterIgnore? text = some rest ↔
      ∃ gap gap', Blanks gap ∧ gap ≠ [] ∧ Blanks gap' ∧ gap' ≠ [] ∧ StartsClear rest ∧
        text = "istanbul".toList ++ (gap ++ ("ignore".toList ++ (gap' ++ rest))) := by
  have hi : ∀ cs, StartsClear ("ignore".toList ++ cs) := startsClear_append (by decide) (by decide)
  simp only [afterIgnore?,Option.bind_eq_bind,Option.bind_eq_some_iff,afterWord?_eq_some_iff,
    afterBlanks?_eq_some_iff]
  constructor
  · rintro ⟨-,rfl,-,⟨gap,hg,hne,rfl,-⟩,-,rfl,gap',hg',hne',rfl,hr⟩
    exact ⟨gap,gap',hg,hne,hg',hne',hr,rfl⟩
  · rintro ⟨gap,gap',hg,hne,hg',hne',hr,rfl⟩
    exact ⟨_,rfl,_,⟨gap,hg,hne,rfl,hi _⟩,_,rfl,gap',hg',hne',rfl,hr⟩

theorem hasKeyword_iff :
    hasKeyword kw text = true ↔
      ∃ tail, afterIgnore? text = some (kw.toList ++ tail) ∧ endsWord tail = true := by
  unfold hasKeyword
  cases afterIgnore? text with
  | none => simp
  | some rest =>
    cases hw : afterWord? kw.toList rest with
    | none =>
      have hn : ∀ tail, rest ≠ kw.toList ++ tail := fun tail he => by
        rw [(afterWord?_eq_some_iff _ _ _).mpr he] at hw
        cases hw
      simp [hw,hn]
    | some tail =>
      rw [afterWord?_eq_some_iff] at hw
      simp [hw,(afterWord?_eq_some_iff _ _ _).mpr rfl]

/-- A word ends at the end of a text, at a blank, and at any other character that is part of no word. -/
theorem endsWord_iff :
    endsWord tail = true ↔ Blanks tail ∨ ∃ c rest, tail = c :: rest ∧ isWord c = false := by
  cases tail with
  | nil => simp [Blanks]
  | cons c rest =>
    simp only [endsWord_cons,Bool.not_eq_true']
    constructor
    · intro h
      exact .inr ⟨c,rest,rfl,h⟩
    · rintro (h | ⟨d,rest',he,h⟩)
      · exact isWord_of_isBlank (h c (by simp))
      · cases he
        exact h

theorem endsWord_append (h : endsWord tail = true) {trail : List Char} (ht : Blanks trail) :
    endsWord (tail ++ trail) = true := by
  cases tail with
  | nil => exact endsWord_iff.mpr (.inl ht)
  | cons c rest => exact h

theorem endsWord_dropTail (h : endsWord tail = true) : endsWord (dropTail isBlank tail) = true := by
  obtain ⟨trail,-,he⟩ := exists_dropTail tail
  cases hd : dropTail isBlank tail with
  | nil => rfl
  | cons c rest =>
    rw [hd] at he
    rw [he] at h
    exact h

/-- The blanks at the end of a text make no difference, since a keyword ends at a blank as well as at the
end of the text. -/
theorem hasKeyword_dropTail (h : kw ∈ keywords) (text : List Char) :
    hasKeyword kw (dropTail isBlank text) = hasKeyword kw text := by
  obtain ⟨hne,hb⟩ := letters_of_keyword h
  rw [Bool.eq_iff_iff,hasKeyword_iff,hasKeyword_iff]
  simp only [afterIgnore?_eq_some_iff]
  constructor
  · rintro ⟨tail,⟨gap,gap',hg,hgap,hg',hgap',-,he⟩,hw⟩
    obtain ⟨trail,ht,hx⟩ := exists_dropTail text
    refine ⟨tail ++ trail,⟨gap,gap',hg,hgap,hg',hgap',startsClear_keyword h _,?_⟩,
      endsWord_append hw ht⟩
    rw [hx,he]
    simp only [List.append_assoc]
  · rintro ⟨tail,⟨gap,gap',hg,hgap,hg',hgap',-,rfl⟩,hw⟩
    refine ⟨dropTail isBlank tail,⟨gap,gap',hg,hgap,hg',hgap',startsClear_keyword h _,?_⟩,
      endsWord_dropTail hw⟩
    have hc : StartsClear ("istanbul".toList ++ gap ++ "ignore".toList ++ gap' ++ kw.toList).reverse := by
      rw [List.reverse_append]
      exact startsClear_append (by simpa using hne) (by rwa [List.any_reverse]) _
    have hd := dropTail_append hc tail
    simpa only [List.append_assoc] using hd

theorem hasKeyword_trimBlank (h : kw ∈ keywords) (text : List Char) :
    hasKeyword kw (trimBlank text) = hasKeyword kw (text.dropWhile isBlank) :=
  hasKeyword_dropTail h _

/-- The scanner accepts exactly the texts of the grammar. -/
theorem hasKeyword_trimBlank_iff (h : kw ∈ keywords) :
    hasKeyword kw (trimBlank text) = true ↔ Reads kw text := by
  rw [hasKeyword_trimBlank h,hasKeyword_iff]
  simp only [afterIgnore?_eq_some_iff,endsWord_iff]
  constructor
  · rintro ⟨tail,⟨gap,gap',hg,hne,hg',hne',-,he⟩,hw⟩
    refine ⟨text.takeWhile isBlank,gap,gap',tail,blanks_takeWhile text,hg,hne,hg',hne',hw,?_⟩
    calc text = text.takeWhile isBlank ++ text.dropWhile isBlank :=
          List.takeWhile_append_dropWhile.symm
      _ = _ := by simp only [he,List.append_assoc]
  · rintro ⟨lead,gap,gap',tail,hl,hg,hne,hg',hne',hw,rfl⟩
    refine ⟨tail,⟨gap,gap',hg,hne,hg',hne',startsClear_keyword h _,?_⟩,hw⟩
    simp only [List.append_assoc,hl.dropWhile_append]
    exact (startsClear_append (by decide) (by decide) _).dropWhile_eq

theorem keyword_unique (h : kw ∈ keywords) (h' : kw' ∈ keywords) (hk : hasKeyword kw text = true)
    (hk' : hasKeyword kw' text = true) : kw = kw' := by
  obtain ⟨tail,ht,-⟩ := hasKeyword_iff.mp hk
  obtain ⟨tail',ht',-⟩ := hasKeyword_iff.mp hk'
  exact keyword_eq_of_append h h' (Option.some.inj (ht.symm.trans ht'))

theorem hasKeyword_of_ofText? {t : String} {k : Hint} (h : ofText? t = some k) :
    hasKeyword k.keyword (trimBlank t.toList) = true := by
  have hk := List.find?_some (show all.find? _ = some k from h)
  exact hk

/-- The hint of a comment is the one whose keyword it has; the order in which the hints are tried makes
no difference. -/
theorem ofText?_eq_some_iff {t : String} {k : Hint} :
    ofText? t = some k ↔ hasKeyword k.keyword (trimBlank t.toList) = true := by
  constructor
  · exact hasKeyword_of_ofText?
  · intro h
    cases hf : ofText? t with
    | none =>
      have hn := List.find?_eq_none.mp hf k (by cases k <;> decide)
      exact absurd h hn
    | some k' =>
      have hk := keyword_unique (mem_keywords k) (mem_keywords k') h (hasKeyword_of_ofText? hf)
      have hi : ∀ k k' : Hint, k.keyword = k'.keyword → k = k' := by
        intro k k'
        cases k <;> cases k' <;> decide
      rw [hi k k' hk]

/-! ### Other blanks -/

/-- Texts that differ in the blanks between their words only. -/
inductive Respaced : List Char → List Char → Prop where
  | nil : Respaced [] []
  | char {x y : List Char} (c : Char) (h : Respaced x y) : Respaced (c :: x) (c :: y)
  | blanks {w w' x y : List Char} (hw : Blanks w) (hw' : Blanks w') (hne : w ≠ []) (hne' : w' ≠ [])
      (h : Respaced x y) : Respaced (w ++ x) (w' ++ y)

namespace Respaced

variable {x y w w' : List Char}

theorem refl (x : List Char) : Respaced x x := by
  induction x with
  | nil => exact .nil
  | cons c x ih => exact .char c ih

theorem append (z : List Char) (h : Respaced x y) : Respaced (z ++ x) (z ++ y) := by
  induction z with
  | nil => exact h
  | cons c z ih => exact .char c ih

theorem dropWhile (h : Respaced x y) : Respaced (x.dropWhile isBlank) (y.dropWhile isBlank) := by
  induction h with
  | nil => exact .nil
  | @char x y c h ih =>
    by_cases hc : isBlank c = true
    · simpa [hc] using ih
    · simpa [hc] using Respaced.char c h
  | blanks hw hw' _ _ _ ih => rwa [hw.dropWhile_append,hw'.dropWhile_append]

theorem afterWord? {word : List Char} (hb : word.any isBlank = false) (h : Respaced x y) :
    Option.Rel Respaced (afterWord? word x) (afterWord? word y) := by
  induction word generalizing x y with
  | nil => exact .some h
  | cons c word ih =>
    rw [List.any_cons,Bool.or_eq_false_iff] at hb
    obtain ⟨hc,hb⟩ := hb
    cases h with
    | nil => exact .none
    | char d h =>
      by_cases hd : c = d
      · simpa [CoverageCounters.afterWord?,hd] using ih hb h
      · simp [CoverageCounters.afterWord?,hd]
    | blanks hw hw' hne hne' h =>
      -- a word does not start with a blank, so neither text has it
      obtain ⟨d,w,rfl⟩ := List.exists_cons_of_ne_nil hne
      obtain ⟨d',w',rfl⟩ := List.exists_cons_of_ne_nil hne'
      have hd : c ≠ d := by rintro rfl; simp [hw c (by simp)] at hc
      have hd' : c ≠ d' := by rintro rfl; simp [hw' c (by simp)] at hc
      simp [CoverageCounters.afterWord?,hd,hd']

theorem afterBlanks? (h : Respaced x y) :
    Option.Rel Respaced (afterBlanks? x) (afterBlanks? y) := by
  cases h with
  | nil => exact .none
  | char c h =>
    by_cases hc : isBlank c = true
    · simpa [CoverageCounters.afterBlanks?,hc] using Option.Rel.some h.dropWhile
    · simp [CoverageCounters.afterBlanks?,hc]
  | blanks hw hw' hne hne' h =>
    obtain ⟨d,w,rfl⟩ := List.exists_cons_of_ne_nil hne
    obtain ⟨d',w',rfl⟩ := List.exists_cons_of_ne_nil hne'
    have hr : Blanks w := fun c hc => hw c (by simp [hc])
    have hr' : Blanks w' := fun c hc => hw' c (by simp [hc])
    simpa [CoverageCounters.afterBlanks?,hw d (by simp),hw' d' (by simp),hr.dropWhile_append,
      hr'.dropWhile_append] using Option.Rel.some h.dropWhile

theorem endsWord_eq (h : Respaced x y) : endsWord x = endsWord y := by
  cases h with
  | nil => rfl
  | char c h => rfl
  | blanks hw hw' hne hne' h =>
    obtain ⟨d,w,rfl⟩ := List.exists_cons_of_ne_nil hne
    obtain ⟨d',w',rfl⟩ := List.exists_cons_of_ne_nil hne'
    simp [isWord_of_isBlank (hw d (by simp)),isWord_of_isBlank (hw' d' (by simp))]

theorem bind {f : List Char → Option (List Char)} {a b : Option (List Char)}
    (h : Option.Rel Respaced a b)
    (hf : ∀ x y, Respaced x y → Option.Rel Respaced (f x) (f y)) :
    Option.Rel Respaced (a.bind f) (b.bind f) := by
  cases h with
  | none => exact .none
  | some h => exact hf _ _ h

theorem afterIgnore? (h : Respaced x y) :
    Option.Rel Respaced (afterIgnore? x) (afterIgnore? y) := by
  have ht : "istanbul".toList.any isBlank = false := by decide
  have hi : "ignore".toList.any isBlank = false := by decide
  refine bind (h.afterWord? ht) fun x y h => ?_
  refine bind h.afterBlanks? fun x y h => ?_
  exact bind (h.afterWord? hi) fun x y h => h.afterBlanks?

theorem hasKeyword_eq (hk : kw ∈ keywords) (h : Respaced x y) : hasKeyword kw x = hasKeyword kw y := by
  have hr := h.afterIgnore?
  unfold hasKeyword
  generalize Hint.afterIgnore? x = a at hr ⊢
  generalize Hint.afterIgnore? y = b at hr ⊢
  cases hr with
  | none => rfl
  | @some x y h =>
    have ht := h.afterWord? (letters_of_keyword hk).2
    dsimp only
    generalize CoverageCounters.afterWord? kw.toList x = a at ht ⊢
    generalize CoverageCounters.afterWord? kw.toList y = b at ht ⊢
    cases ht with
    | none => rfl
    | some h => exact h.endsWord_eq

end Respaced

/-- What a comment says is decided by which keywords it has. -/
theorem ofText?_congr {t t' : String}
    (h : ∀ kw ∈ keywords, hasKeyword kw (trimBlank t.toList) = hasKeyword kw (trimBlank t'.toList)) :
    ofText? t = ofText? t' ∧ isFileHint t = isFileHint t' := by
  refine ⟨Option.ext fun k => ?_,h "file" (by simp [keywords])⟩
  rw [ofText?_eq_some_iff,ofText?_eq_some_iff,h _ (mem_keywords k)]

end Hint

open Hint

/-- What a comment says is what the grammar reads in it, with each of the four keywords, and no text is
read with two of them. Blanks put around a text, and other blanks in the place of blanks anywhere in it,
change nothing. -/
theorem hint_grammar (t : String) :
    (∀ k : Hint, ofText? t = some k ↔ Reads k.keyword t.toList) ∧
    (isFileHint t = true ↔ Reads "file" t.toList) ∧
    (∀ kw ∈ keywords, ∀ kw' ∈ keywords, Reads kw t.toList → Reads kw' t.toList → kw = kw') ∧
    (∀ w w' : List Char, Blanks w → Blanks w' → ∀ u : String, u.toList = w ++ t.toList ++ w' →
      ofText? u = ofText? t ∧ isFileHint u = isFileHint t) ∧
    (∀ a b w w' : List Char, Blanks w → w ≠ [] → Blanks w' → w' ≠ [] → t.toList = a ++ w ++ b →
      ∀ u : String, u.toList = a ++ w' ++ b → ofText? u = ofText? t ∧ isFileHint u = isFileHint t) := by
  refine ⟨fun k => ?_,?_,fun kw hk kw' hk' hr hr' => ?_,fun w w' hw hw' u hu => ?_,
    fun a b w w' hw hne hw' hne' ht u hu => ?_⟩
  · rw [ofText?_eq_some_iff,hasKeyword_trimBlank_iff (mem_keywords k)]
  · exact hasKeyword_trimBlank_iff (by simp [keywords])
  · rw [← hasKeyword_trimBlank_iff hk] at hr
    rw [← hasKeyword_trimBlank_iff hk'] at hr'
    exact keyword_unique hk hk' hr hr'
  · apply ofText?_congr
    intro kw hk
    rw [hu,trimBlank_between hw hw']
  · apply ofText?_congr
    intro kw hk
    have hr : Respaced u.toList t.toList := by
      rw [hu,ht,List.append_assoc,List.append_assoc]
      exact Respaced.append a (.blanks hw' hw hne' hne (.refl b))
    rw [hasKeyword_trimBlank hk,hasKeyword_trimBlank hk,hr.dropWhile.hasKeyword_eq hk]

theorem hint_grammar_respaced :
    Reads "next" "istanbul ignore next: a".toList ∧ ¬Reads "file" "istanbul ignore next: a".toList ∧
    ofText? "\n istanbul ignore next: a " = some .next ∧
    ofText? "istanbul\t\u2003 ignore next: a" = some .next := by
  have hn : ofText? "istanbul ignore next: a" = some .next := by decide +kernel
  have hb : ∀ w : String, w.toList.all isBlank = true → Blanks w.toList := fun w => List.all_eq_true.mp
  obtain ⟨hr,hf,ho,ha,hi⟩ := hint_grammar "istanbul ignore next: a"
  have hread := (hr .next).mp hn
  refine ⟨hread,fun hfile => ?_,?_,?_⟩
  · have he := ho _ (mem_keywords .next) "file" (by simp [keywords]) hread hfile
    simp [keyword] at he
  · rw [(ha _ _ (hb "\n " (by decide +kernel)) (hb " " (by decide +kernel)) _ (by decide +kernel)).1,hn]
  · rw [(hi "istanbul".toList "ignore next: a".toList _ _ (hb " " (by decide +kernel)) (by decide)
      (hb "\t\u2003 " (by decide +kernel)) (by decide) (by decide +kernel) _ (by decide +kernel)).1,hn]

end CoverageCounters
