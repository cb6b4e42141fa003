import CoverageCounters.Json.Parser
import CoverageCounters.Proofs.ShortestDecimal

/-!
Compact JSON text is unambiguous. A reader that knows the first character of a text knows the kind of
the value, a quoted text ends at its first quote that is not escaped, and a number ends before the first
character no number has. So the text of a value tells the value and the rest, one level after the other.
-/

namespace CoverageCounters.Json

mutual

def ProperNumbers : Json → Prop
  | .number n => n.Proper
  | .array items => ProperItems items
  | .object entries => ProperEntries entries
  | _ => True

def ProperItems : List Json → Prop
  | [] => True
  | j :: items => ProperNumbers j ∧ ProperItems items

def ProperEntries : List (String × Json) → Prop
  | [] => True
  | (_,j) :: entries => ProperNumbers j ∧ ProperEntries entries

end

/-! ### Quoted texts -/

/-- The character behind a backslash, and the text after it. -/
def unescaped : List Char → Option (Char × List Char)
  | '"' :: cs => some ('"',cs)
  | '\\' :: cs => some ('\\',cs)
  | 'b' :: cs => some (Char.ofNat 8,cs)
  | 't' :: cs => some (Char.ofNat 9,cs)
  | 'n' :: cs => some (Char.ofNat 10,cs)
  | 'f' :: cs => some (Char.ofNat 12,cs)
  | 'r' :: cs => some (Char.ofNat 13,cs)
  | 'u' :: '0' :: '0' :: h :: l :: cs => do
    let high ← hexValue? h
    let low ← hexValue? l
    some (Char.ofNat (16 * high + low),cs)
  | _ => none

/-- The first character inside quotes, and the text after it; none at the closing quote. -/
def firstQuoted : List Char → Option (Char × List Char)
  | '"' :: _ => none
  | '\\' :: cs => unescaped cs
  | c :: cs => some (c,cs)
  | [] => none

theorem firstQuoted_of_plain {c : Char} {cs : List Char} (hq : c ≠ '"') (hb : c ≠ '\\') :
    firstQuoted (c :: cs) = some (c,cs) := by
  unfold firstQuoted
  split
  · rename_i h
    exact absurd (List.cons.inj h).1 hq
  · rename_i h
    exact absurd (List.cons.inj h).1 hb
  · rename_i h
    rw [(List.cons.inj h).1,(List.cons.inj h).2]
  · contradiction

theorem eq_ofNat_of_val {c : Char} {n : Nat} (h : c.toNat = n) : c = Char.ofNat n := by
  rw [← h,Char.ofNat_toNat]

theorem val_eq_iff {c : Char} {n : UInt32} : c.val = n ↔ c.toNat = n.toNat := by
  rw [← UInt32.toNat_inj]
  rfl

/-- An escape reads as the character it stands for, whatever follows it. -/
theorem firstQuoted_escape (c : Char) (cs : List Char) : firstQuoted (escape c ++ cs) = some (c,cs) := by
  unfold escape
  split_ifs with hq hb h₈ h₉ h₁₀ h₁₂ h₁₃ hc
  · rw [hq]
    rfl
  · rw [hb]
    rfl
  · rw [eq_ofNat_of_val (val_eq_iff.mp h₈)]
    rfl
  · rw [eq_ofNat_of_val (val_eq_iff.mp h₉)]
    rfl
  · rw [eq_ofNat_of_val (val_eq_iff.mp h₁₀)]
    rfl
  · rw [eq_ofNat_of_val (val_eq_iff.mp h₁₂)]
    rfl
  · rw [eq_ofNat_of_val (val_eq_iff.mp h₁₃)]
    rfl
  · have hdigit : ∀ n < 16, hexValue? (hexDigit n) = some n := by decide
    change ((hexValue? (hexDigit (c.toNat / 16))).bind fun high =>
      (hexValue? (hexDigit (c.toNat % 16))).bind fun low => some (Char.ofNat (16 * high + low),cs)) = _
    rw [hdigit _ (by omega),hdigit _ (by omega),Option.bind_some,Option.bind_some,
      Nat.div_add_mod,Char.ofNat_toNat]
  · exact firstQuoted_of_plain hq hb

/-- The characters of a quoted text and what follows its closing quote. -/
theorem escapes_inj {cs ds r s : List Char}
    (h : cs.foldr (fun c text => escape c ++ text) ('"' :: r)
      = ds.foldr (fun c text => escape c ++ text) ('"' :: s)) : cs = ds ∧ r = s := by
  induction cs generalizing ds with
  | nil =>
    cases ds with
    | nil => exact ⟨rfl,(List.cons.inj h).2⟩
    | cons d ds =>
      have := congrArg firstQuoted h
      rw [List.foldr_cons,firstQuoted_escape] at this
      cases this
  | cons c cs ih =>
    cases ds with
    | nil =>
      have := congrArg firstQuoted h
      rw [List.foldr_cons,firstQuoted_escape] at this
      cases this
    | cons d ds =>
      have := congrArg firstQuoted h
      rw [List.foldr_cons,List.foldr_cons,firstQuoted_escape,firstQuoted_escape] at this
      obtain ⟨hcd,hrest⟩ := Prod.mk.inj (Option.some.inj this)
      obtain ⟨hcs,hr⟩ := ih hrest
      exact ⟨by rw [hcd,hcs],hr⟩

theorem quote_inj {s t : String} {r r' : List Char} (h : quote s r = quote t r') : s = t ∧ r = r' := by
  obtain ⟨hs,hr⟩ := escapes_inj (List.cons.inj h).2
  exact ⟨String.toList_inj.mp hs,hr⟩

/-! ### Numbers in front of a rest -/

/-- A rest that no number runs into. -/
def Delimited : List Char → Prop
  | [] => True
  | c :: _ => isNumberChar c = false

theorem takeWhile_text {n : Number} {r : List Char} (hr : Delimited r) :
    (n.text ++ r).takeWhile isNumberChar = n.text := by
  rw [List.takeWhile_append_of_pos fun c hc => Number.isNumberChar_of_mem_text hc]
  match r, hr with
  | [], _ => exact List.append_nil _
  | c :: r, hc => rw [List.takeWhile_cons_of_neg (by rw [hc]; decide),List.append_nil]

theorem text_append_inj {m n : Number} {r s : List Char} (hm : m.Proper) (hn : n.Proper)
    (hr : Delimited r) (hs : Delimited s) (h : m.text ++ r = n.text ++ s) : m = n ∧ r = s := by
  have ht : m.text = n.text := by rw [← takeWhile_text hr,h,takeWhile_text hs]
  rw [ht] at h
  exact ⟨Number.text_inj hm hn ht,List.append_cancel_left h⟩

/-! ### The kind of a value -/

/-- The first character of a value's text, where `0` stands for all that a number can start with. -/
def lead : Json → Char
  | .null => 'n'
  | .bool true => 't'
  | .bool false => 'f'
  | .number _ => '0'
  | .string _ => '"'
  | .array _ => '['
  | .object _ => '\x7b'

def leadOf (c : Char) : Char := if isNumberChar c then '0' else c

theorem leadOf_render (j : Json) (rest : List Char) :
    (render j rest).head?.map leadOf = some j.lead := by
  cases j with
  | null => rfl
  | bool b => cases b <;> rfl
  | string s => rfl
  | array items => rfl
  | object entries => rfl
  | number n =>
    obtain ⟨c,cs,ht⟩ := List.exists_cons_of_ne_nil n.text_ne_nil
    have hc : isNumberChar c = true := Number.isNumberChar_of_mem_text (ht ▸ List.mem_cons_self)
    change ((n.text ++ rest).head?).map leadOf = some '0'
    rw [ht,List.cons_append,List.head?_cons,Option.map_some,leadOf,if_pos hc]

/-- Two values of one kind. -/
inductive Alike : Json → Json → Prop
  | null : Alike .null .null
  | bool (b : Bool) : Alike (.bool b) (.bool b)
  | number (m n : Number) : Alike (.number m) (.number n)
  | string (s t : String) : Alike (.string s) (.string t)
  | array (items items' : List Json) : Alike (.array items) (.array items')
  | object (entries entries' : List (String × Json)) : Alike (.object entries) (.object entries')

theorem alike_of_lead {a b : Json} (h : a.lead = b.lead) : Alike a b := by
  rcases a with _ | (_ | _) | _ | _ | _ | _ <;> rcases b with _ | (_ | _) | _ | _ | _ | _ <;>
    first
    | constructor
    | simp [lead] at h

theorem alike_of_render {a b : Json} {r s : List Char} (h : render a r = render b s) : Alike a b := by
  have hl := leadOf_render a r
  rw [h,leadOf_render] at hl
  exact alike_of_lead (Option.some.inj hl).symm

theorem render_ne_close {j : Json} {r s : List Char} : render j r ≠ ']' :: s := by
  intro h
  have hl := leadOf_render j r
  rw [h,List.head?_cons,Option.map_some] at hl
  have hlead : leadOf ']' = j.lead := Option.some.inj hl
  cases j with
  | bool b => cases b <;> exact absurd hlead (by decide)
  | null | number | string | array | object =>
    rw [lead] at hlead
    exact absurd hlead (by decide)

/-! ### Arrays and objects -/

theorem delimited_items (items : List Json) (r : List Char) :
    Delimited (renderItems false items (']' :: r)) := by
  cases items with
  | nil => exact (rfl : isNumberChar ']' = false)
  | cons j items => exact (rfl : isNumberChar ',' = false)

theorem delimited_entries (entries : List (String × Json)) (r : List Char) :
    Delimited (renderEntries false entries ('\x7d' :: r)) := by
  cases entries with
  | nil => exact (rfl : isNumberChar '\x7d' = false)
  | cons e entries => exact (rfl : isNumberChar ',' = false)

theorem separated_inj {first : Bool} {r s : List Char} (h : separated first r = separated first s) :
    r = s := by
  cases first with
  | true => exact h
  | false => exact (List.cons.inj h).2

theorem renderItems_ne_close {first : Bool} {j : Json} {items : List Json} {r s : List Char} :
    renderItems first (j :: items) r ≠ ']' :: s := by
  intro h
  change separated first (render j (renderItems false items r)) = ']' :: s at h
  cases first with
  | true => exact render_ne_close h
  | false => exact absurd (List.cons.inj h).1 (by decide)

theorem renderEntries_ne_close {first : Bool} {e : String × Json} {entries : List (String × Json)}
    {r s : List Char} : renderEntries first (e :: entries) r ≠ '\x7d' :: s := by
  intro h
  change separated first (quote e.1 (':' :: render e.2 (renderEntries false entries r))) = _ at h
  cases first with
  | true => exact absurd (List.cons.inj h).1 (by decide)
  | false => exact absurd (List.cons.inj h).1 (by decide)

mutual

/-- The text of a value tells the value and what follows it. -/
theorem render_inj : ∀ (a b : Json) {r s : List Char}, a.ProperNumbers → b.ProperNumbers →
    Delimited r → Delimited s → render a r = render b s → a = b ∧ r = s
  | .null, b, _, _, _, _, _, _, h => by
    cases alike_of_render h
    exact ⟨rfl,List.append_cancel_left h⟩
  | .bool x, b, _, _, _, _, _, _, h => by
    cases alike_of_render h
    cases x <;> exact ⟨rfl,List.append_cancel_left h⟩
  | .number m, b, _, _, ha, hb, hr, hs, h => by
    cases alike_of_render h with
    | number m n =>
      obtain ⟨hn,hrest⟩ := text_append_inj ha hb hr hs h
      exact ⟨by rw [hn],hrest⟩
  | .string x, b, _, _, _, _, _, _, h => by
    cases alike_of_render h with
    | string x y =>
      obtain ⟨hs,hrest⟩ := quote_inj h
      exact ⟨by rw [hs],hrest⟩
  | .array items, b, _, _, ha, hb, _, _, h => by
    cases alike_of_render h with
    | array items items' =>
      obtain ⟨hi,hrest⟩ := renderItems_inj items items' ha hb (List.cons.inj h).2
      exact ⟨by rw [hi],hrest⟩
  | .object entries, b, _, _, ha, hb, _, _, h => by
    cases alike_of_render h with
    | object entries entries' =>
      obtain ⟨he,hrest⟩ := renderEntries_inj entries entries' ha hb (List.cons.inj h).2
      exact ⟨by rw [he],hrest⟩

theorem renderItems_inj : ∀ (items items' : List Json) {first : Bool} {r s : List Char},
    ProperItems items → ProperItems items' →
    renderItems first items (']' :: r) = renderItems first items' (']' :: s) → items = items' ∧ r = s
  | [], [], _, _, _, _, _, h => ⟨rfl,(List.cons.inj h).2⟩
  | [], _ :: _, _, _, _, _, _, h => absurd h.symm renderItems_ne_close
  | _ :: _, [], _, _, _, _, _, h => absurd h renderItems_ne_close
  | a :: items, b :: items', _, _, _, ha, hb, h => by
    obtain ⟨hab,hrest⟩ := render_inj a b ha.1 hb.1 (delimited_items items _) (delimited_items items' _)
      (separated_inj h)
    obtain ⟨hi,hr⟩ := renderItems_inj items items' ha.2 hb.2 hrest
    exact ⟨by rw [hab,hi],hr⟩

theorem renderEntries_inj : ∀ (entries entries' : List (String × Json)) {first : Bool} {r s : List Char},
    ProperEntries entries → ProperEntries entries' →
    renderEntries first entries ('\x7d' :: r) = renderEntries first entries' ('\x7d' :: s) →
    entries = entries' ∧ r = s
  | [], [], _, _, _, _, _, h => ⟨rfl,(List.cons.inj h).2⟩
  | [], _ :: _, _, _, _, _, _, h => absurd h.symm renderEntries_ne_close
  | _ :: _, [], _, _, _, _, _, h => absurd h renderEntries_ne_close
  | (k,a) :: entries, (k',b) :: entries', _, _, _, ha, hb, h => by
    obtain ⟨hk,hvalue⟩ := quote_inj (separated_inj h)
    obtain ⟨hab,hrest⟩ := render_inj a b ha.1 hb.1 (delimited_entries entries _)
      (delimited_entries entries' _) (List.cons.inj hvalue).2
    obtain ⟨he,hr⟩ := renderEntries_inj entries entries' ha.2 hb.2 hrest
    exact ⟨by rw [hk,hab,he],hr⟩

end

/-- Distinct values have distinct texts. -/
theorem compact_inj {a b : Json} (ha : a.ProperNumbers) (hb : b.ProperNumbers)
    (h : a.compact = b.compact) : a = b := by
  have ht := congrArg String.toList h
  rw [compact,compact,String.toList_ofList,String.toList_ofList] at ht
  exact (render_inj a b (r := []) (s := []) ha hb trivial trivial ht).1

end CoverageCounters.Json
