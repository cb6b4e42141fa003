import Mathlib.Data.List.Basic
import CoverageCounters.Path.OsText

/-!
How bytes are read. The encoding of a text is read as that text, and bytes that are read without a gap
are the encoding of what is read. An ASCII byte is read alike wherever it stands, so bytes can be cut
there.
-/

namespace CoverageCounters

namespace Utf8

open String (utf8EncodeChar)

variable {b : UInt8} {p : Pending} {value behind low high : Nat} {bytes rest : List UInt8}

/-! ### Single bytes -/

theorem decode_ascii (h : b.toNat < 0x80) (rest : List UInt8) :
    decode none (b :: rest) = some (.ofNat b.toNat) :: decode none rest := by
  rw [decode,start,if_pos h]
  rfl

theorem decode_lead (h : lead? b.toNat = some p) (rest : List UInt8) :
    decode none (b :: rest) = decode (some p) rest := by
  have hb : ¬ b.toNat < 0x80 := by
    intro hb
    rw [lead?,if_neg (by omega),if_neg (by omega),if_neg (by omega)] at h
    cases h
  rw [decode,start,if_neg hb,h]
  rfl

theorem decode_last (hl : low ≤ b.toNat) (hh : b.toNat ≤ high) (rest : List UInt8) :
    decode (some ⟨value,0,low,high⟩) (b :: rest) =
      some (.ofNat (value * 64 + (b.toNat - 0x80))) :: decode none rest := by
  rw [decode,Pending.step,if_pos ⟨hl,hh⟩]
  rfl

theorem decode_next (hl : low ≤ b.toNat) (hh : b.toNat ≤ high) (rest : List UInt8) :
    decode (some ⟨value,behind + 1,low,high⟩) (b :: rest) =
      decode (some ⟨value * 64 + (b.toNat - 0x80),behind,0x80,0xBF⟩) rest := by
  rw [decode,Pending.step,if_pos ⟨hl,hh⟩]
  rfl

theorem lead?_two {n : Nat} (h : 0xC2 ≤ n) (h' : n ≤ 0xDF) :
    lead? n = some ⟨n - 0xC0,0,0x80,0xBF⟩ :=
  if_pos ⟨h,h'⟩

theorem lead?_three {n : Nat} (h : 0xE0 ≤ n) (h' : n ≤ 0xEF) :
    lead? n = some
      ⟨n - 0xE0,1,if n = 0xE0 then 0xA0 else 0x80,if n = 0xED then 0x9F else 0xBF⟩ :=
  (if_neg (by omega)).trans (if_pos ⟨h,h'⟩)

theorem lead?_four {n : Nat} (h : 0xF0 ≤ n) (h' : n ≤ 0xF4) :
    lead? n = some
      ⟨n - 0xF0,2,if n = 0xF0 then 0x90 else 0x80,if n = 0xF4 then 0x8F else 0xBF⟩ :=
  (if_neg (by omega)).trans ((if_neg (by omega)).trans (if_pos ⟨h,h'⟩))

/-! ### Encodings are read -/

/-- The encoding of a character by its number, in one to four bytes. -/
theorem utf8EncodeChar_eq (c : Char) : utf8EncodeChar c =
    if c.toNat ≤ 0x7F then [UInt8.ofNat c.toNat]
    else if c.toNat ≤ 0x7FF then
      [UInt8.ofNat (c.toNat / 64 % 32 + 0xC0),UInt8.ofNat (c.toNat % 64 + 0x80)]
    else if c.toNat ≤ 0xFFFF then
      [UInt8.ofNat (c.toNat / 4096 % 16 + 0xE0),UInt8.ofNat (c.toNat / 64 % 64 + 0x80),
        UInt8.ofNat (c.toNat % 64 + 0x80)]
    else
      [UInt8.ofNat (c.toNat / 262144 % 8 + 0xF0),UInt8.ofNat (c.toNat / 4096 % 64 + 0x80),
        UInt8.ofNat (c.toNat / 64 % 64 + 0x80),UInt8.ofNat (c.toNat % 64 + 0x80)] := rfl

theorem toNat_tail (n : Nat) : (UInt8.ofNat (n % 64 + 0x80)).toNat = n % 64 + 0x80 := by
  simp
  omega

theorem decode_encodeChar (c : Char) (rest : List UInt8) :
    decode none (utf8EncodeChar c ++ rest) = some c :: decode none rest := by
  have hv : c.toNat < 0xD800 ∨ 0xDFFF < c.toNat ∧ c.toNat < 0x110000 := c.valid
  have hc : Char.ofNat c.toNat = c := Char.ofNat_toNat c
  rw [utf8EncodeChar_eq]
  generalize c.toNat = v at hv hc
  split
  next h =>
    have hb : (UInt8.ofNat v).toNat = v := by simp; omega
    rw [List.singleton_append,decode_ascii (by omega),hb,hc]
  next h =>
  split
  next h' =>
    have hb : (UInt8.ofNat (v / 64 % 32 + 0xC0)).toNat = v / 64 + 0xC0 := by simp; omega
    have hp := lead?_two (n := (UInt8.ofNat (v / 64 % 32 + 0xC0)).toNat) (by omega) (by omega)
    have hvalue : (v / 64 + 0xC0 - 0xC0) * 64 + (v % 64 + 0x80 - 0x80) = v := by omega
    rw [List.cons_append,decode_lead hp,List.singleton_append,
      decode_last (by rw [toNat_tail]; omega) (by rw [toNat_tail]; omega),toNat_tail,hb,hvalue,hc]
  next h' =>
  split
  next h'' =>
    have hb : (UInt8.ofNat (v / 4096 % 16 + 0xE0)).toNat = v / 4096 + 0xE0 := by simp; omega
    have hp := lead?_three (n := (UInt8.ofNat (v / 4096 % 16 + 0xE0)).toNat) (by omega) (by omega)
    have hvalue : ((v / 4096 + 0xE0 - 0xE0) * 64 + (v / 64 % 64 + 0x80 - 0x80)) * 64 +
        (v % 64 + 0x80 - 0x80) = v := by omega
    rw [List.cons_append,decode_lead hp,List.cons_append,
      decode_next (by rw [toNat_tail]; split <;> omega) (by rw [toNat_tail]; split <;> omega),
      List.singleton_append,
      decode_last (by rw [toNat_tail]; omega) (by rw [toNat_tail]; omega),
      toNat_tail,toNat_tail,hb,hvalue,hc]
  next h'' =>
    have hb : (UInt8.ofNat (v / 262144 % 8 + 0xF0)).toNat = v / 262144 + 0xF0 := by simp; omega
    have hp := lead?_four (n := (UInt8.ofNat (v / 262144 % 8 + 0xF0)).toNat) (by omega) (by omega)
    have hvalue : (((v / 262144 + 0xF0 - 0xF0) * 64 + (v / 4096 % 64 + 0x80 - 0x80)) * 64 +
        (v / 64 % 64 + 0x80 - 0x80)) * 64 + (v % 64 + 0x80 - 0x80) = v := by omega
    rw [List.cons_append,decode_lead hp,List.cons_append,
      decode_next (by rw [toNat_tail]; split <;> omega) (by rw [toNat_tail]; split <;> omega),
      List.cons_append,
      decode_next (by rw [toNat_tail]; omega) (by rw [toNat_tail]; omega),List.singleton_append,
      decode_last (by rw [toNat_tail]; omega) (by rw [toNat_tail]; omega),
      toNat_tail,toNat_tail,toNat_tail,hb,hvalue,hc]

theorem decode_encode (cs : List Char) : decode none (cs.flatMap utf8EncodeChar) = cs.map some := by
  induction cs with
  | nil => rfl
  | cons c cs ih => rw [List.flatMap_cons,decode_encodeChar,ih]; rfl

/-! ### What is read was encoded -/

/-- Behind a part of a character stands a byte that goes on with it, if there is no gap. -/
theorem exists_of_pending (h : none ∉ decode (some p) bytes) :
    ∃ b rest, bytes = b :: rest ∧ p.low ≤ b.toNat ∧ b.toNat ≤ p.high := by
  cases bytes with
  | nil => exact absurd List.mem_cons_self h
  | cons b rest =>
    refine ⟨b,rest,rfl,?_⟩
    by_contra hb
    rw [decode,Pending.step,if_neg hb] at h
    exact h List.mem_cons_self

theorem ofNat_eq_of_toNat {n : Nat} (h : b.toNat = n) : UInt8.ofNat n = b := by
  rw [← h,UInt8.ofNat_toNat]

theorem toNat_ofNat_of_valid {n : Nat} (h : n < 0xD800 ∨ 0xDFFF < n ∧ n < 0x110000) :
    (Char.ofNat n).toNat = n := by
  rw [Char.ofNat,dif_pos h]
  rfl

/-- Bytes that are read without a gap start with the encoding of a character. -/
theorem exists_encodeChar (h : none ∉ decode none (b :: rest)) :
    ∃ c tail, b :: rest = utf8EncodeChar c ++ tail := by
  have hlt : b.toNat < 256 := b.toNat_lt
  by_cases h1 : b.toNat < 0x80
  · refine ⟨.ofNat b.toNat,rest,?_⟩
    rw [utf8EncodeChar_eq,toNat_ofNat_of_valid (by omega),if_pos (by omega),UInt8.ofNat_toNat]
    rfl
  by_cases h2 : 0xC2 ≤ b.toNat ∧ b.toNat ≤ 0xDF
  · rw [decode_lead (lead?_two h2.1 h2.2)] at h
    obtain ⟨b1,rest,rfl,hl,hh⟩ := exists_of_pending h
    dsimp only at hl hh
    refine ⟨.ofNat ((b.toNat - 0xC0) * 64 + (b1.toNat - 0x80)),rest,?_⟩
    rw [utf8EncodeChar_eq,toNat_ofNat_of_valid (by omega),if_neg (by omega),if_pos (by omega),
      ofNat_eq_of_toNat (b := b) (by omega),ofNat_eq_of_toNat (b := b1) (by omega)]
    rfl
  by_cases h3 : 0xE0 ≤ b.toNat ∧ b.toNat ≤ 0xEF
  · rw [decode_lead (lead?_three h3.1 h3.2)] at h
    obtain ⟨b1,rest,rfl,hl,hh⟩ := exists_of_pending h
    rw [decode_next hl hh] at h
    obtain ⟨b2,rest,rfl,hl2,hh2⟩ := exists_of_pending h
    dsimp only at hl hh hl2 hh2
    -- no long form and no surrogate
    have hb1 : 0x80 ≤ b1.toNat ∧ b1.toNat ≤ 0xBF ∧ (b.toNat = 0xE0 → 0xA0 ≤ b1.toNat) ∧
        (b.toNat = 0xED → b1.toNat ≤ 0x9F) := by
      split at hl <;> split at hh <;> omega
    refine ⟨.ofNat (((b.toNat - 0xE0) * 64 + (b1.toNat - 0x80)) * 64 + (b2.toNat - 0x80)),rest,?_⟩
    rw [utf8EncodeChar_eq,toNat_ofNat_of_valid (by omega),if_neg (by omega),if_neg (by omega),
      if_pos (by omega),ofNat_eq_of_toNat (b := b) (by omega),
      ofNat_eq_of_toNat (b := b1) (by omega),ofNat_eq_of_toNat (b := b2) (by omega)]
    rfl
  by_cases h4 : 0xF0 ≤ b.toNat ∧ b.toNat ≤ 0xF4
  · rw [decode_lead (lead?_four h4.1 h4.2)] at h
    obtain ⟨b1,rest,rfl,hl,hh⟩ := exists_of_pending h
    rw [decode_next hl hh] at h
    obtain ⟨b2,rest,rfl,hl2,hh2⟩ := exists_of_pending h
    rw [decode_next hl2 hh2] at h
    obtain ⟨b3,rest,rfl,hl3,hh3⟩ := exists_of_pending h
    dsimp only at hl hh hl2 hh2 hl3 hh3
    -- no long form and nothing beyond the last character
    have hb1 : 0x80 ≤ b1.toNat ∧ b1.toNat ≤ 0xBF ∧ (b.toNat = 0xF0 → 0x90 ≤ b1.toNat) ∧
        (b.toNat = 0xF4 → b1.toNat ≤ 0x8F) := by
      split at hl <;> split at hh <;> omega
    refine ⟨.ofNat ((((b.toNat - 0xF0) * 64 + (b1.toNat - 0x80)) * 64 + (b2.toNat - 0x80)) * 64 +
      (b3.toNat - 0x80)),rest,?_⟩
    rw [utf8EncodeChar_eq,toNat_ofNat_of_valid (by omega),if_neg (by omega),if_neg (by omega),
      if_neg (by omega),ofNat_eq_of_toNat (b := b) (by omega),
      ofNat_eq_of_toNat (b := b1) (by omega),ofNat_eq_of_toNat (b := b2) (by omega),
      ofNat_eq_of_toNat (b := b3) (by omega)]
    rfl
  have hn : lead? b.toNat = none := by rw [lead?,if_neg h2,if_neg h3,if_neg h4]
  rw [decode,start,if_neg h1,hn] at h
  exact absurd List.mem_cons_self h

theorem exists_encode (h : none ∉ decode none bytes) :
    ∃ cs, bytes = List.flatMap utf8EncodeChar cs := by
  induction hn : bytes.length using Nat.strongRecOn generalizing bytes with
  | _ n ih =>
    cases bytes with
    | nil => exact ⟨[],rfl⟩
    | cons b rest =>
      obtain ⟨c,tail,hc⟩ := exists_encodeChar h
      have hpos : 0 < (utf8EncodeChar c).length :=
        List.length_pos_iff.mpr String.utf8EncodeChar_ne_nil
      rw [hc,decode_encodeChar] at h
      rw [hc,List.length_append] at hn
      obtain ⟨cs,rfl⟩ := ih tail.length (by omega) (fun hm => h (List.mem_cons_of_mem _ hm)) rfl
      exact ⟨c :: cs,hc⟩

/-! ### Cutting at a byte -/

theorem low_of_lead? {n : Nat} (h : lead? n = some p) : 0x80 ≤ p.low := by
  unfold lead? at h
  split at h
  · exact Option.some.inj h ▸ Nat.le_refl 0x80
  split at h
  · rw [← Option.some.inj h]
    dsimp only
    split <;> omega
  split at h
  · rw [← Option.some.inj h]
    dsimp only
    split <;> omega
  · cases h

theorem low_of_start {n : Nat} (h : (start n).2 = some p) : 0x80 ≤ p.low := by
  unfold start at h
  split at h
  · cases h
  · split at h
    next q hq => exact low_of_lead? (hq.trans h)
    · cases h

theorem low_of_step {q : Pending} {n : Nat} (h : (q.step n).2 = some p) : 0x80 ≤ p.low := by
  unfold Pending.step at h
  split at h
  · dsimp only at h
    split at h
    · cases h
    · exact Option.some.inj h ▸ Nat.le_refl 0x80
  · exact low_of_start h

/-- An ASCII byte ends whatever stands before it. -/
theorem decode_append_ascii (h : b.toNat < 0x80) (front : List UInt8) (pending : Option Pending)
    (hp : ∀ p, pending = some p → 0x80 ≤ p.low) :
    decode pending (front ++ b :: rest) = decode pending front ++ decode none (b :: rest) := by
  induction front generalizing pending with
  | nil =>
    cases pending with
    | none => rfl
    | some p =>
      have hb : ¬ (p.low ≤ b.toNat ∧ b.toNat ≤ p.high) := fun hb => by
        have hl := hp p rfl
        omega
      have hs : p.step b.toNat = (none :: (start b.toNat).1,(start b.toNat).2) := if_neg hb
      change (p.step b.toNat).1 ++ decode (p.step b.toNat).2 rest = _
      rw [hs]
      rfl
  | cons d front ih =>
    cases pending with
    | none =>
      change (start d.toNat).1 ++ decode (start d.toNat).2 (front ++ b :: rest) = _
      rw [ih _ fun p hp => low_of_start hp,← List.append_assoc]
      rfl
    | some q =>
      change (q.step d.toNat).1 ++ decode (q.step d.toNat).2 (front ++ b :: rest) = _
      rw [ih _ fun p hp => low_of_step hp,← List.append_assoc]
      rfl

end Utf8

namespace OsText

variable {s s' : String} {t : OsText} {b : UInt8} {front rest : List UInt8}

/-- All of some answers are there just if each is. -/
theorem mapM_id_eq_some_iff {os : List (Option Char)} {cs : List Char} :
    os.mapM id = some cs ↔ os = cs.map some := by
  induction os generalizing cs with
  | nil => cases cs <;> simp
  | cons o os ih =>
    rw [List.mapM_cons]
    cases o with
    | none => cases cs <;> simp
    | some c =>
      have hbind : (id (some c) >>= fun x => os.mapM id >>= fun xs => pure (x :: xs)) =
          (os.mapM id).map (c :: ·) := by cases os.mapM id <;> rfl
      rw [hbind,Option.map_eq_some_iff]
      cases cs with
      | nil => simp
      | cons d cs => simp [ih,and_comm]

theorem text?_eq_some_iff : t.text? = some s ↔ t = ofString s := by
  constructor
  · intro h
    obtain ⟨cs,hm,rfl⟩ := Option.map_eq_some_iff.mp h
    rw [mapM_id_eq_some_iff] at hm
    have hn : none ∉ Utf8.decode none t.bytes := by simp [hm]
    obtain ⟨cs',he⟩ := Utf8.exists_encode hn
    rw [he,Utf8.decode_encode] at hm
    have hcs : cs' = cs := List.map_injective_iff.mpr (fun _ _ => Option.some.inj) hm
    rw [OsText.ext_iff,he,hcs,ofString,String.toList_ofList]
  · rintro rfl
    have hd : (Utf8.decode none (ofString s).bytes).mapM id = some s.toList :=
      mapM_id_eq_some_iff.mpr (Utf8.decode_encode s.toList)
    rw [text?,hd,Option.map_some,String.ofList_toList]

@[simp] theorem text?_ofString (s : String) : (ofString s).text? = some s := text?_eq_some_iff.mpr rfl

@[simp] theorem ofString_inj : ofString s = ofString s' ↔ s = s' := by
  constructor
  · intro h
    have ht := text?_ofString s
    rw [h,text?_ofString] at ht
    exact (Option.some.inj ht).symm
  · rintro rfl
    rfl

@[simp] theorem lossy_ofString (s : String) : (ofString s).lossy = s := by
  have hd : Utf8.decode none (ofString s).bytes = s.toList.map some := Utf8.decode_encode s.toList
  rw [lossy,hd,List.map_map]
  exact (congrArg _ (List.map_id _)).trans (String.ofList_toList)

/-- A path is read as what stands before an ASCII byte and what starts with it. -/
theorem toList_lossy_append (h : b.toNat < 0x80) :
    (lossy ⟨front ++ b :: rest⟩).toList =
      (lossy ⟨front⟩).toList ++ .ofNat b.toNat :: (lossy ⟨rest⟩).toList := by
  simp only [lossy,String.toList_ofList]
  rw [Utf8.decode_append_ascii h front none nofun,List.map_append,Utf8.decode_ascii h]
  rfl

end OsText
end CoverageCounters
