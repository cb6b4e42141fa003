import Mathlib.Data.List.Perm.Subperm
import CoverageCounters.Directives
import CoverageCounters.Proofs.HintGrammar

/-!
Which hint leads a construct, said without the search for it. The comments stored as leading come first.
Failing those, the trailing comments that run up to the construct with blanks only in between decide, and
among these the right-most one with a hint. A binary search over the comments sorted by where they start,
and a scan back from where they end, find that one, since comments that do not overlap end in the order
in which they start.
-/

namespace CoverageCounters

/-! ### Binary search -/

section Search

variable {α : Type} {p : α → Bool} {xs : List α}

/-- The point where the list is parted stays in the range that is searched. -/
theorem partitionFrom_eq {k : Nat} (hp : ∀ (i : Nat) x, xs[i]? = some x → (p x = true ↔ i < k))
    (hk : k ≤ xs.length) (base size : Nat) (hb : base ≤ k) (hs : k ≤ base + size) :
    partitionFrom p xs base size = k := by
  fun_induction partitionFrom p xs base size with
  | case1 base size h x hx hpx =>
    have hlt := (hp base x hx).mp hpx
    omega
  | case2 base size h x hx hpx =>
    have hge := mt (hp base x hx).mpr hpx
    omega
  | case3 base size h hx =>
    have hge := List.getElem?_eq_none_iff.mp hx
    omega
  | case4 base size h mid holds ih =>
    have hh : holds = true ↔ mid < k := by
      dsimp only [holds]
      cases hx : xs[mid]? with
      | none =>
        have hge := List.getElem?_eq_none_iff.mp hx
        simp only [Bool.false_eq_true,false_iff]
        omega
      | some x => exact hp mid x hx
    by_cases hm : mid < k
    · rw [dif_pos (hh.mpr hm)] at ih
      rw [if_pos (hh.mpr hm)]
      exact ih (by omega) (by omega)
    · rw [dif_neg (mt hh.mp hm)] at ih
      rw [if_neg (mt hh.mp hm)]
      exact ih hb (by omega)

theorem exists_parted (h : xs.Pairwise fun a b => p b = true → p a = true) :
    ∃ ys zs, xs = ys ++ zs ∧ (∀ y ∈ ys, p y = true) ∧ ∀ z ∈ zs, p z = false := by
  induction xs with
  | nil => exact ⟨[],[],by simp⟩
  | cons x xs ih =>
    rw [List.pairwise_cons] at h
    by_cases hx : p x = true
    · obtain ⟨ys,zs,rfl,hy,hz⟩ := ih h.2
      exact ⟨x :: ys,zs,rfl,by simpa [hx] using hy,hz⟩
    · refine ⟨[],x :: xs,rfl,by simp,?_⟩
      intro z hz
      rcases List.mem_cons.mp hz with rfl | hz
      · simpa using hx
      · simpa using mt (h.1 z hz) hx

/-- In a list that a test parts, the elements in front of the parting point are those that pass. -/
theorem take_partitionPoint (h : xs.Pairwise fun a b => p b = true → p a = true) :
    xs.take (partitionPoint p xs) = xs.filter p := by
  obtain ⟨ys,zs,rfl,hy,hz⟩ := exists_parted h
  have hpoint : partitionPoint p (ys ++ zs) = ys.length := by
    apply partitionFrom_eq
    · intro i x hx
      by_cases hi : i < ys.length
      · rw [List.getElem?_append_left hi] at hx
        simp [hy x (List.mem_of_getElem? hx),hi]
      · rw [List.getElem?_append_right (by omega)] at hx
        simp [hz x (List.mem_of_getElem? hx),hi]
    all_goals simp
  rw [hpoint,List.take_left,List.filter_append,List.filter_eq_self.mpr hy,
    List.filter_eq_nil_iff.mpr (by simpa using hz),List.append_nil]

end Search

/-! ### Blanks between two positions -/

namespace SourceText

def width : List Char → Nat
  | [] => 0
  | c :: cs => c.utf8Size + width cs

@[simp] theorem width_nil : width [] = 0 := rfl

@[simp] theorem width_cons (c : Char) (cs : List Char) : width (c :: cs) = c.utf8Size + width cs := rfl

def BlankBetween (t : SourceText) (lo hi : Nat) : Prop :=
  lo = hi ∨ ∃ before gap after, t.chars = before ++ (gap ++ after) ∧ 1 + width before = lo ∧
    lo + width gap = hi ∧ Blanks gap

theorem BlankBetween.le {t : SourceText} {lo hi : Nat} (h : t.BlankBetween lo hi) : lo ≤ hi := by
  rcases h with rfl | ⟨_,_,_,_,_,_,_⟩ <;> omega

theorem dropTo_eq_some_iff {target pos : Nat} {cs rest : List Char} :
    dropTo target pos cs = some rest ↔ ∃ before, cs = before ++ rest ∧ pos + width before = target := by
  induction cs generalizing pos with
  | nil =>
    by_cases hp : pos = target
    · simp [dropTo,hp,eq_comm]
    · simp [dropTo,hp]
  | cons c cs ih =>
    have hc := c.utf8Size_pos
    by_cases hp : pos = target
    · simp only [dropTo,if_pos hp,Option.some.injEq]
      constructor
      · rintro rfl
        exact ⟨[],rfl,hp⟩
      · rintro ⟨before,he,hw⟩
        cases before with
        | nil => exact he
        | cons b before =>
          cases he
          simp only [width_cons] at hw
          omega
    · simp only [dropTo,if_neg hp,ih]
      constructor
      · rintro ⟨before,rfl,hw⟩
        exact ⟨c :: before,rfl,by simp only [width_cons]; omega⟩
      · rintro ⟨before,he,hw⟩
        cases before with
        | nil => exact absurd hw hp
        | cons b before =>
          cases he
          exact ⟨before,rfl,by simp only [width_cons] at hw; omega⟩

theorem takeTo_eq_some_iff {target pos : Nat} {cs taken : List Char} :
    takeTo target pos cs = some taken ↔ ∃ after, cs = taken ++ after ∧ pos + width taken = target := by
  induction cs generalizing pos taken with
  | nil =>
    cases taken <;> simp [takeTo]
  | cons c cs ih =>
    have hc := c.utf8Size_pos
    by_cases hp : pos = target
    · simp only [takeTo,if_pos hp,Option.some.injEq]
      constructor
      · rintro rfl
        exact ⟨c :: cs,rfl,hp⟩
      · rintro ⟨after,he,hw⟩
        cases taken with
        | nil => rfl
        | cons b taken =>
          cases he
          simp only [width_cons] at hw
          omega
    · simp only [takeTo,if_neg hp,Option.map_eq_some_iff,ih]
      constructor
      · rintro ⟨taken,⟨after,rfl,hw⟩,rfl⟩
        exact ⟨after,rfl,by simp only [width_cons]; omega⟩
      · rintro ⟨after,he,hw⟩
        cases taken with
        | nil => exact absurd hw hp
        | cons b taken =>
          cases he
          exact ⟨taken,⟨after,rfl,by simp only [width_cons] at hw; omega⟩,rfl⟩

theorem slice?_eq_some_iff {t : SourceText} {lo hi : Nat} {gap : List Char} :
    t.slice? lo hi = some gap ↔ ∃ before after, t.chars = before ++ (gap ++ after) ∧
      1 + width before = lo ∧ lo + width gap = hi := by
  simp only [slice?,Option.bind_eq_some_iff,dropTo_eq_some_iff,takeTo_eq_some_iff]
  constructor
  · rintro ⟨_,⟨before,he,hb⟩,after,rfl,hg⟩
    exact ⟨before,after,he,hb,hg⟩
  · rintro ⟨before,after,he,hb,hg⟩
    exact ⟨_,⟨before,he,hb⟩,after,rfl,hg⟩

end SourceText

namespace Directives

theorem onlyBlankBetween_iff {d : Directives} {lo hi : Nat} :
    d.onlyBlankBetween lo hi = true ↔ d.source.BlankBetween lo hi := by
  unfold onlyBlankBetween
  by_cases hle : hi ≤ lo
  · rw [if_pos hle,decide_eq_true_eq]
    exact ⟨.inl,fun h => by have := h.le; omega⟩
  · rw [if_neg hle]
    have hne : lo ≠ hi := by omega
    simp only [SourceText.BlankBetween,hne,false_or]
    cases hs : d.source.slice? lo hi with
    | none =>
      simp only [Bool.false_eq_true,false_iff]
      rintro ⟨before,gap,after,he,hb,hg,-⟩
      rw [SourceText.slice?_eq_some_iff.mpr ⟨before,after,he,hb,hg⟩] at hs
      cases hs
    | some gap =>
      simp only [List.all_eq_true]
      constructor
      · intro h
        obtain ⟨before,after,he,hb,hg⟩ := SourceText.slice?_eq_some_iff.mp hs
        exact ⟨before,gap,after,he,hb,hg,h⟩
      · rintro ⟨before,gap',after,he,hb,hg,h⟩
        rw [SourceText.slice?_eq_some_iff.mpr ⟨before,after,he,hb,hg⟩] at hs
        cases hs
        exact h

end Directives

/-! ### Comments that do not overlap -/

namespace Comment

/-- The positions of a comment. It has delimiters, so the position where it starts is always one. -/
def Covers (c : Comment) (pos : Nat) : Prop := pos = c.span.lo ∨ c.span.lo ≤ pos ∧ pos < c.span.hi

/-- Comments without a common position. -/
def Disjoint (a b : Comment) : Prop := ∀ pos, ¬(a.Covers pos ∧ b.Covers pos)

variable {a b : Comment}

theorem Disjoint.symm (h : a.Disjoint b) : b.Disjoint a := fun pos hp => h pos ⟨hp.2,hp.1⟩

/-- The comment that starts first ends before the other. -/
theorem Disjoint.before (h : a.Disjoint b) (hle : a.span.lo ≤ b.span.lo) :
    a.span.lo < b.span.lo ∧ a.span.hi ≤ b.span.lo := by
  have hb : ¬a.Covers b.span.lo := fun ha => h b.span.lo ⟨ha,.inl rfl⟩
  simp only [Covers] at hb
  omega

end Comment

namespace Directives

variable {d : Directives} {pos : Nat} {run rest : List Comment}

def sorted (d : Directives) : List Comment :=
  d.comments.trailing.all.mergeSort fun a b => a.span.lo ≤ b.span.lo

def indexed (c : Comment) : TrailingComment := ⟨c.span,Hint.ofText? c.text⟩

theorem sorted_perm (d : Directives) : d.sorted.Perm d.comments.trailing.all :=
  List.mergeSort_perm _ _

theorem trailingIndex_eq (d : Directives) : d.trailingIndex = d.sorted.map indexed :=
  (List.map_mergeSort (f := indexed) fun _ _ _ _ => rfl).symm

theorem sorted_pairwise (h : d.comments.trailing.all.Pairwise Comment.Disjoint) :
    d.sorted.Pairwise fun a b => a.span.lo < b.span.lo ∧ a.span.hi ≤ b.span.lo := by
  have hd : d.sorted.Pairwise Comment.Disjoint :=
    (d.sorted_perm.pairwise_iff Comment.Disjoint.symm).mpr h
  have ho : d.sorted.Pairwise fun a b => decide (a.span.lo ≤ b.span.lo) = true := by
    refine List.pairwise_mergeSort (fun a b c hab hbc => ?_) (fun a b => ?_) _
    · simp only [decide_eq_true_eq] at hab hbc ⊢
      omega
    · simp only [Bool.or_eq_true,decide_eq_true_eq]
      omega
  exact hd.imp₂ (fun a b hab hle => hab.before (by simpa using hle)) ho

/-- The trailing comments that end at a position or in front of it, nearest first. -/
def near (d : Directives) (pos : Nat) : List Comment :=
  (d.sorted.filter fun c => c.span.hi ≤ pos).reverse

theorem mem_near {c : Comment} : c ∈ d.near pos ↔ c ∈ d.comments.trailing.all ∧ c.span.hi ≤ pos := by
  simp [near,d.sorted_perm.mem_iff]

theorem near_pairwise (h : d.comments.trailing.all.Pairwise Comment.Disjoint) (pos : Nat) :
    (d.near pos).Pairwise fun a b => b.span.lo < a.span.lo := by
  rw [near,List.pairwise_reverse]
  exact ((sorted_pairwise h).imp And.left).filter _

/-- What the binary search hands to the scan. -/
theorem adjacentHint?_eq (h : d.comments.trailing.all.Pairwise Comment.Disjoint) (pos : Nat) :
    d.adjacentHint? pos = d.scanBack pos ((d.near pos).map indexed) := by
  have hp : d.trailingIndex.Pairwise fun a b =>
      decide (b.span.hi ≤ pos) = true → decide (a.span.hi ≤ pos) = true := by
    rw [trailingIndex_eq,List.pairwise_map]
    refine (sorted_pairwise h).imp fun {a b} hab => ?_
    show decide (b.span.hi ≤ pos) = true → decide (a.span.hi ≤ pos) = true
    have hle := b.span.lo_le_hi
    simp only [decide_eq_true_eq]
    omega
  simp only [adjacentHint?]
  rw [take_partitionPoint hp,trailingIndex_eq,List.filter_map,← List.map_reverse]
  rfl

/-! ### Runs of comments -/

/-- Comments, nearest first, with blanks only between each of them and what follows it, up to a
position. -/
def Spaced (t : SourceText) : Nat → List Comment → Prop
  | _,[] => True
  | pos,c :: rest => t.BlankBetween c.span.hi pos ∧ Spaced t c.span.lo rest

/-- Trailing comments that run up to a position, nearest first, none of them passed over. -/
structure IsRun (d : Directives) (pos : Nat) (run : List Comment) : Prop where
  spaced : Spaced d.source pos run
  trailing : run.Subperm d.comments.trailing.all
  unbroken : ∀ c ∈ run, ∀ c' ∈ d.comments.trailing.all, c.span.lo ≤ c'.span.lo → c'.span.hi ≤ pos →
    c' ∈ run

/-- A run that no further comment continues. -/
def MaximalRun (d : Directives) (pos : Nat) (run : List Comment) : Prop :=
  d.IsRun pos run ∧ ∀ c, ¬d.IsRun pos (run ++ [c])

namespace Spaced

variable {t : SourceText} {c : Comment}

theorem hi_le (h : Spaced t pos run) (hc : c ∈ run) : c.span.hi ≤ pos := by
  induction run generalizing pos with
  | nil => cases hc
  | cons b run ih =>
    have hb := h.1.le
    rcases List.mem_cons.mp hc with rfl | hc
    · exact hb
    · have hi := ih h.2 hc
      have hle := b.span.lo_le_hi
      omega

/-- Comments that do not overlap are spaced in the order in which they start. -/
theorem pairwise (h : Spaced t pos run) (hd : run.Pairwise Comment.Disjoint) :
    run.Pairwise fun a b => b.span.lo < a.span.lo := by
  induction run generalizing pos with
  | nil => exact .nil
  | cons b run ih =>
    rw [List.pairwise_cons] at hd ⊢
    refine ⟨fun c hc => ?_,ih h.2 hd.2⟩
    have hi := h.2.hi_le hc
    have hle := c.span.lo_le_hi
    exact ((hd.1 c hc).symm.before (by omega)).1

end Spaced

/-- Comments in the order of `ys` that leave out none in front of one of theirs are the first of `ys`. -/
theorem exists_append_of_closed {xs ys : List Comment}
    (hx : xs.Pairwise fun a b => b.span.lo < a.span.lo)
    (hy : ys.Pairwise fun a b => b.span.lo < a.span.lo) (hs : ∀ a ∈ xs, a ∈ ys)
    (hc : ∀ a ∈ xs, ∀ b ∈ ys, a.span.lo ≤ b.span.lo → b ∈ xs) : ∃ rest, ys = xs ++ rest := by
  induction xs generalizing ys with
  | nil => exact ⟨ys,rfl⟩
  | cons x xs ih =>
    cases ys with
    | nil => cases hs x (by simp)
    | cons y ys =>
      rw [List.pairwise_cons] at hx hy
      have hxy : y = x := by
        -- the first of `ys` starts last, so `xs` has it, and in `xs` nothing starts after `x`
        rcases List.mem_cons.mp (hs x (by simp)) with he | he
        · exact he.symm
        · have hlt := hy.1 x he
          rcases List.mem_cons.mp (hc x (by simp) y (by simp) (by omega)) with he | hm
          · exact he
          · have := hx.1 y hm
            omega
      subst hxy
      have hs' : ∀ a ∈ xs, a ∈ ys := fun a ha => by
        have hlt := hx.1 a ha
        rcases List.mem_cons.mp (hs a (by simp [ha])) with rfl | he
        · omega
        · exact he
      have hc' : ∀ a ∈ xs, ∀ b ∈ ys, a.span.lo ≤ b.span.lo → b ∈ xs := fun a ha b hb hle => by
        have hlt := hy.1 b hb
        rcases List.mem_cons.mp (hc a (by simp [ha]) b (by simp [hb]) hle) with rfl | he
        · omega
        · exact he
      obtain ⟨rest,rfl⟩ := ih hx.2 hy.2 hs' hc'
      exact ⟨rest,rfl⟩

theorem isRun_iff (h : d.comments.trailing.all.Pairwise Comment.Disjoint) :
    d.IsRun pos run ↔ (∃ rest, d.near pos = run ++ rest) ∧ Spaced d.source pos run := by
  constructor
  · intro hr
    refine ⟨?_,hr.spaced⟩
    obtain ⟨ordered,hp,hs⟩ := hr.trailing
    have hd : run.Pairwise Comment.Disjoint :=
      (hp.pairwise_iff Comment.Disjoint.symm).mp (h.sublist hs)
    apply exists_append_of_closed (hr.spaced.pairwise hd) (near_pairwise h pos)
    · intro a ha
      exact mem_near.mpr ⟨hr.trailing.subset ha,hr.spaced.hi_le ha⟩
    · intro a ha b hb hle
      obtain ⟨hm,hi⟩ := mem_near.mp hb
      exact hr.unbroken a ha b hm hle hi
  · rintro ⟨⟨rest,he⟩,hs⟩
    have hn := near_pairwise h pos
    rw [he,List.pairwise_append] at hn
    refine ⟨hs,?_,fun c hc c' hc' hle hi => ?_⟩
    · have hsub : run.Sublist (d.near pos) := by simp [he]
      have hnear : (d.near pos).Subperm d.sorted :=
        ((List.reverse_perm _).subperm).trans List.filter_sublist.subperm
      exact (hsub.subperm.trans hnear).trans d.sorted_perm.subperm
    · have hm : c' ∈ run ++ rest := he ▸ mem_near.mpr ⟨hc',hi⟩
      rcases List.mem_append.mp hm with hm | hm
      · exact hm
      · have := hn.2.2 c hc c' hm
        omega

/-- The maximal run is the part of the comments nearby up to the first gap that is not blank. -/
theorem maximalRun_iff (h : d.comments.trailing.all.Pairwise Comment.Disjoint) :
    d.MaximalRun pos run ↔ ∃ rest, d.near pos = run ++ rest ∧ Spaced d.source pos run ∧
      ∀ c ∈ rest.head?, ¬Spaced d.source pos (run ++ [c]) := by
  simp only [MaximalRun,isRun_iff h]
  constructor
  · rintro ⟨⟨⟨rest,he⟩,hs⟩,hmax⟩
    refine ⟨rest,he,hs,fun c hc hcs => ?_⟩
    obtain ⟨tail,rfl⟩ := List.head?_eq_some_iff.mp (Option.mem_def.mp hc)
    exact hmax c ⟨⟨tail,by simp [he]⟩,hcs⟩
  · rintro ⟨rest,he,hs,hend⟩
    refine ⟨⟨⟨rest,he⟩,hs⟩,?_⟩
    rintro c ⟨⟨tail,he'⟩,hcs⟩
    have hr : rest = c :: tail := by simpa [he] using he'
    exact hend c (by simp [hr]) hcs

theorem exists_spaced_append (t : SourceText) (pos : Nat) (xs : List Comment) :
    ∃ run rest, xs = run ++ rest ∧ Spaced t pos run ∧ ∀ c ∈ rest.head?, ¬Spaced t pos (run ++ [c]) := by
  induction xs generalizing pos with
  | nil => exact ⟨[],[],rfl,trivial,by simp⟩
  | cons x xs ih =>
    by_cases hx : t.BlankBetween x.span.hi pos
    · obtain ⟨run,rest,rfl,hs,hend⟩ := ih x.span.lo
      exact ⟨x :: run,rest,rfl,⟨hx,hs⟩,fun c hc hcs => hend c hc hcs.2⟩
    · refine ⟨[],x :: xs,rfl,trivial,fun c hc hcs => ?_⟩
      cases hc
      exact hx hcs.1

theorem exists_maximalRun (h : d.comments.trailing.all.Pairwise Comment.Disjoint) (pos : Nat) :
    ∃ run, d.MaximalRun pos run := by
  obtain ⟨run,rest,he,hs,hend⟩ := exists_spaced_append d.source pos (d.near pos)
  exact ⟨run,(maximalRun_iff h).mpr ⟨rest,he,hs,hend⟩⟩

/-- The scan sees a run, and stops at what does not continue it. -/
theorem scanBack_append (hs : Spaced d.source pos run)
    (hend : ∀ c ∈ rest.head?, ¬Spaced d.source pos (run ++ [c])) :
    d.scanBack pos ((run ++ rest).map indexed) = run.findSome? fun c => Hint.ofText? c.text := by
  induction run generalizing pos with
  | nil =>
    cases rest with
    | nil => rfl
    | cons c rest =>
      have hgap : d.onlyBlankBetween c.span.hi pos ≠ true := fun hb =>
        hend c (by simp) ⟨onlyBlankBetween_iff.mp hb,trivial⟩
      simp [scanBack,indexed,hgap]
  | cons b run ih =>
    have hgap : d.onlyBlankBetween b.span.hi pos = true := onlyBlankBetween_iff.mpr hs.1
    have hrun := ih hs.2 fun c hc hcs => hend c hc ⟨hs.1,hcs⟩
    simp only [List.cons_append,List.map_cons,scanBack,indexed,hgap,if_true,List.findSome?_cons]
    cases Hint.ofText? b.text with
    | none => exact hrun
    | some k => rfl

theorem adjacentHint?_of_maximalRun (h : d.comments.trailing.all.Pairwise Comment.Disjoint)
    (hr : d.MaximalRun pos run) :
    d.adjacentHint? pos = run.findSome? fun c => Hint.ofText? c.text := by
  obtain ⟨rest,he,hs,hend⟩ := (maximalRun_iff h).mp hr
  rw [adjacentHint?_eq h,he,scanBack_append hs hend]

/-! ### What leads a position -/

/-- The hint that leads a position: that of the last leading comment with a hint; if there is none, that
of the right-most comment with a hint in the maximal run of trailing comments; else none. -/
inductive Resolves (d : Directives) (pos : Nat) : Option Hint → Prop where
  | leading {before after : List Comment} {c : Comment} {k : Hint}
      (hl : d.comments.leading.attachedAt pos = before ++ c :: after)
      (hk : Hint.ofText? c.text = some k) (hlast : ∀ c' ∈ after, Hint.ofText? c'.text = none) :
      Resolves d pos (some k)
  | trailing {run : List Comment} {c : Comment} {k : Hint}
      (hl : ∀ c ∈ d.comments.leading.attachedAt pos, Hint.ofText? c.text = none)
      (hr : d.MaximalRun pos run) (hc : c ∈ run) (hk : Hint.ofText? c.text = some k)
      (hlast : ∀ c' ∈ run, c.span.lo < c'.span.lo → Hint.ofText? c'.text = none) :
      Resolves d pos (some k)
  | none {run : List Comment}
      (hl : ∀ c ∈ d.comments.leading.attachedAt pos, Hint.ofText? c.text = none)
      (hr : d.MaximalRun pos run) (hn : ∀ c ∈ run, Hint.ofText? c.text = none) :
      Resolves d pos none

theorem hintFor?_eq {s : Span} (hs : s.isDummy = false) :
    d.hintFor? s = ((d.comments.leading.attachedAt s.lo).reverse.findSome? fun c =>
      Hint.ofText? c.text).or (d.adjacentHint? s.lo) := by
  simp [hintFor?,hs,List.getLast?_filterMap]

theorem MaximalRun.pairwise (h : d.comments.trailing.all.Pairwise Comment.Disjoint)
    (hr : d.MaximalRun pos run) : run.Pairwise fun a b => b.span.lo < a.span.lo := by
  obtain ⟨rest,he,-,-⟩ := (maximalRun_iff h).mp hr
  have hn := near_pairwise h pos
  rw [he] at hn
  exact (List.pairwise_append.mp hn).1

/-- The search finds a hint that leads the span, or that there is none. -/
theorem resolves_hintFor? (h : d.comments.trailing.all.Pairwise Comment.Disjoint) {s : Span}
    (hs : s.isDummy = false) : d.Resolves s.lo (d.hintFor? s) := by
  rw [hintFor?_eq hs]
  cases hl : (d.comments.leading.attachedAt s.lo).reverse.findSome? fun c => Hint.ofText? c.text with
  | some k =>
    obtain ⟨after,c,before,he,hk,hlast⟩ := List.findSome?_eq_some_iff.mp hl
    have he' : d.comments.leading.attachedAt s.lo = before.reverse ++ c :: after.reverse := by
      simpa using congrArg List.reverse he
    exact .leading he' hk fun c' hc' => hlast c' (by simpa using hc')
  | none =>
    have hn : ∀ c ∈ d.comments.leading.attachedAt s.lo, Hint.ofText? c.text = none := by
      simpa using hl
    obtain ⟨run,hr⟩ := exists_maximalRun h s.lo
    rw [adjacentHint?_of_maximalRun h hr,Option.none_or]
    cases hf : run.findSome? fun c => Hint.ofText? c.text with
    | none => exact .none hn hr (by simpa using hf)
    | some k =>
      have hp := hr.pairwise h
      obtain ⟨nearer,c,further,rfl,hk,hlast⟩ := List.findSome?_eq_some_iff.mp hf
      refine .trailing hn hr (by simp) hk fun c' hc' hlt => ?_
      have hfurther := (List.pairwise_cons.mp (List.pairwise_append.mp hp).2.1).1
      rcases List.mem_append.mp hc' with hc' | hc'
      · exact hlast c' hc'
      · rcases List.mem_cons.mp hc' with rfl | hc'
        · omega
        · have hlt' := hfurther c' hc'
          omega

theorem Resolves.hintFor?_eq (h : d.comments.trailing.all.Pairwise Comment.Disjoint) {s : Span}
    (hs : s.isDummy = false) {r : Option Hint} (hr : d.Resolves s.lo r) : d.hintFor? s = r := by
  rw [Directives.hintFor?_eq hs]
  cases hr with
  | @leading before after c k hl hk hlast =>
    have hf : (before ++ c :: after).reverse.findSome? (fun c => Hint.ofText? c.text) = some k :=
      List.findSome?_eq_some_iff.mpr ⟨after.reverse,c,before.reverse,by simp,hk,by simpa using hlast⟩
    rw [hl,hf,Option.some_or]
  | @trailing run c k hl hr hc hk hlast =>
    have hp := hr.pairwise h
    obtain ⟨nearer,further,rfl⟩ := List.append_of_mem hc
    have hf : (nearer ++ c :: further).findSome? (fun c => Hint.ofText? c.text) = some k := by
      refine List.findSome?_eq_some_iff.mpr ⟨nearer,c,further,rfl,hk,fun c' hc' => ?_⟩
      exact hlast c' (by simp [hc']) ((List.pairwise_append.mp hp).2.2 c' hc' c (by simp))
    rw [adjacentHint?_of_maximalRun h hr,hf,List.findSome?_eq_none_iff.mpr (by simpa using hl),
      Option.none_or]
  | none hl hr hn =>
    rw [adjacentHint?_of_maximalRun h hr,List.findSome?_eq_none_iff.mpr hn,
      List.findSome?_eq_none_iff.mpr (by simpa using hl),Option.none_or]

/-- Runs are made of the comments that trail something, whatever they trail. -/
theorem isRun_congr {d' : Directives} (hsrc : d'.source = d.source)
    (hp : d'.comments.trailing.all.Perm d.comments.trailing.all) :
    d'.IsRun pos run ↔ d.IsRun pos run := by
  constructor
  · rintro ⟨hs,ht,hu⟩
    exact ⟨hsrc ▸ hs,hp.subperm_left.mp ht,fun c hc c' hc' => hu c hc c' (hp.mem_iff.mpr hc')⟩
  · rintro ⟨hs,ht,hu⟩
    exact ⟨hsrc ▸ hs,hp.subperm_left.mpr ht,fun c hc c' hc' => hu c hc c' (hp.mem_iff.mp hc')⟩

theorem Resolves.congr {d' : Directives} {r : Option Hint} (hr : d.Resolves pos r)
    (hsrc : d'.source = d.source)
    (hlead : d'.comments.leading.attachedAt pos = d.comments.leading.attachedAt pos)
    (hp : d'.comments.trailing.all.Perm d.comments.trailing.all) : d'.Resolves pos r := by
  have hmax : ∀ run, d.MaximalRun pos run → d'.MaximalRun pos run := by
    intro run hm
    simpa only [MaximalRun,isRun_congr hsrc hp] using hm
  cases hr with
  | leading hl hk hlast => exact .leading (hlead.trans hl) hk hlast
  | trailing hl hr hc hk hlast => exact .trailing (hlead ▸ hl) (hmax _ hr) hc hk hlast
  | none hl hr hn => exact .none (hlead ▸ hl) (hmax _ hr) hn

end Directives

/-- The hint that is found for a span with a place is the one that leads it, and no other. Under which
tokens the trailing comments are stored, and in which order, makes no difference. -/
theorem hint_resolution (d : Directives) (s : Span) (hs : s.isDummy = false)
    (h : d.comments.trailing.all.Pairwise Comment.Disjoint) :
    (∀ r, d.hintFor? s = r ↔ d.Resolves s.lo r) ∧
    ∀ d' : Directives, d'.source = d.source →
      d'.comments.leading.attachedAt s.lo = d.comments.leading.attachedAt s.lo →
      d'.comments.trailing.all.Perm d.comments.trailing.all → d'.hintFor? s = d.hintFor? s := by
  refine ⟨fun r => ⟨?_,fun hr => hr.hintFor?_eq h hs⟩,fun d' hsrc hlead hp => ?_⟩
  · rintro rfl
    exact Directives.resolves_hintFor? h hs
  · have h' : d'.comments.trailing.all.Pairwise Comment.Disjoint :=
      (hp.pairwise_iff Comment.Disjoint.symm).mpr h
    exact ((Directives.resolves_hintFor? h hs).congr hsrc hlead hp).hintFor?_eq h' hs

section Sample

def hintComment : Comment := ⟨" istanbul ignore next ",.ofBounds 3 29⟩

def otherComment : Comment := ⟨" b ",.ofBounds 30 37⟩

/-- A construct at 38 behind two comments, stored as trailing. -/
def trailed (entries : List (Nat × List Comment)) : Directives :=
  ⟨⟨.empty,⟨entries⟩⟩,.ofString "\x7b /* istanbul ignore next */ /* b */ f();"⟩

end Sample

theorem hint_resolution_trailed :
    (trailed [(29,[otherComment]),(2,[hintComment])]).Resolves 38 (some .next) ∧
    (trailed [(29,[otherComment]),(2,[hintComment])]).hintFor? (.ofBounds 38 42) = some .next ∧
    (trailed [(2,[hintComment,otherComment])]).hintFor? (.ofBounds 38 42) = some .next := by
  have hd : (trailed [(29,[otherComment]),(2,[hintComment])]).comments.trailing.all.Pairwise
      Comment.Disjoint := by
    have hpos : otherComment.Disjoint hintComment := by
      intro pos
      simp only [Comment.Covers,otherComment,hintComment,Span.ofBounds]
      grind
    simpa [trailed,CommentTable.all] using hpos
  have hrun : (trailed [(29,[otherComment]),(2,[hintComment])]).MaximalRun 38
      [otherComment,hintComment] := by
    refine ⟨⟨⟨?_,?_,trivial⟩,.refl _,fun _ _ _ hc _ _ => hc⟩,fun c hc => ?_⟩
    · exact Directives.onlyBlankBetween_iff.mp (by decide +kernel)
    · exact Directives.onlyBlankBetween_iff.mp (by decide +kernel)
    · have hle : 3 ≤ 2 := hc.trailing.length_le
      omega
  have hres : (trailed [(29,[otherComment]),(2,[hintComment])]).Resolves 38 (some .next) := by
    refine .trailing (c := hintComment) (fun _ hc => absurd hc List.not_mem_nil) hrun (by simp)
      (by decide +kernel) fun c hc hlt => ?_
    rcases List.mem_cons.mp hc with rfl | hc
    · decide +kernel
    · rw [List.mem_singleton.mp hc] at hlt
      omega
  obtain ⟨hr,hi⟩ := hint_resolution _ (.ofBounds 38 42) rfl hd
  have hn := (hr _).mpr hres
  exact ⟨hres,hn,(hi (trailed [(2,[hintComment,otherComment])]) rfl rfl (.swap _ _ _)).trans hn⟩

end CoverageCounters
