import CoverageCounters.Proofs.OsTexts
import CoverageCounters.Proofs.PathComponents
import CoverageCounters.World.Walk

/-!
What the walk below a directory finds. The walk comes to an entry through directories that are entered,
never through a link. If all it comes to can be read, it finds the sources among what it comes to, each
once and in the order of their paths; if not, it finds nothing at all. Names are any bytes; how a name
starts or ends is said of the text that it encodes, if it encodes one.
-/

namespace CoverageCounters

/-- A name by which directories are left out: that of a text that starts with a dot, or one of two. -/
def LeftOut (name : OsText) : Prop := ∃ text : String, name = text ∧ isSkippedText text = true

/-- A name of a source: that of a text that ends as those of sources do. -/
def NamesSource (name : OsText) : Prop := ∃ text : String, name = text ∧ isSource text = true

theorem any_text?_iff {name : OsText} {p : String → Bool} :
    name.text?.any p = true ↔ ∃ text : String, name = text ∧ p text = true := by
  simp [Option.any_eq_true,OsText.text?_eq_some_iff]

theorem isSkippedDirectory_iff {name : OsText} : isSkippedDirectory name = true ↔ LeftOut name :=
  any_text?_iff

theorem isSourceFile_iff {name : OsText} : isSourceFile name = true ↔ NamesSource name :=
  any_text?_iff

namespace Entry

/-- A tree as a file system holds it: each directory calls its entries by names, no two alike. -/
inductive WellFormed : Entry → Prop where
  | intro {e : Entry} (isName : ∀ p ∈ e.entries, Path.IsName p.1)
      (nodup : (e.entries.map Prod.fst).Nodup) (below : ∀ p ∈ e.entries, WellFormed p.2) :
      WellFormed e

variable {root e : Entry} {entries : List (OsText × Entry)} {name path : OsText}
  {names files here : List OsText}

theorem named?_eq_some_iff (h : (entries.map Prod.fst).Nodup) :
    named? name entries = some e ↔ (name,e) ∈ entries := by
  induction entries with
  | nil => simp
  | cons p entries ih =>
    obtain ⟨n,f⟩ := p
    rw [List.map_cons,List.nodup_cons] at h
    rw [named?]
    by_cases hn : n = name
    · subst hn
      have hm : (n,e) ∉ entries := fun hm => h.1 (List.mem_map.mpr ⟨_,hm,rfl⟩)
      simp [hm,eq_comm]
    · simp [hn,Ne.symm hn,ih h.2]

theorem WellFormed.of_entries_eq_nil (h : e.entries = []) : e.WellFormed := by
  refine .intro ?_ ?_ ?_ <;> simp [h]

theorem WellFormed.directory (h : ∀ p ∈ entries, Path.IsName p.1 ∧ p.2.WellFormed)
    (hd : (entries.map Prod.fst).Nodup) : (Entry.directory entries).WellFormed :=
  .intro (fun p hp => (h p hp).1) hd fun p hp => (h p hp).2

theorem WellFormed.at? (hw : root.WellFormed) (h : root.at? names = some e) : e.WellFormed := by
  induction names generalizing root with
  | nil => exact Option.some.inj h ▸ hw
  | cons name names ih =>
    obtain ⟨inner,hi,ha⟩ := Option.bind_eq_some_iff.mp h
    cases hw with
    | intro _ hd hb => exact ih (hb _ ((named?_eq_some_iff hd).mp hi)) ha

/-- Names lead from a directory to an entry that the walk comes to: each name on the way, the last one
apart, is that of a directory itself, not of a link to one, and not of one that is left out. -/
def ComesTo (root : Entry) (names : List OsText) (e : Entry) : Prop :=
  root.at? names = some e ∧
    ∀ front name back, names = front ++ name :: back → back ≠ [] →
      ¬LeftOut name ∧
      ∃ inner, root.at? (front ++ [name]) = some (.directory inner)

/-- A source that the walk comes to. -/
structure HasSource (root : Entry) (names : List OsText) : Prop where
  comesTo : ∃ text, root.ComesTo names (.file text)
  isSource : ∃ name, names.getLast? = some name ∧ NamesSource name

/-- A directory that cannot be listed, or not to its end. -/
inductive Unlisted : Entry → Prop where
  | closed : Unlisted .closed
  | broken (entries : List (OsText × Entry)) : Unlisted (.broken entries)

theorem unlisted_iff : e.Unlisted ↔ e = .closed ∨ ∃ entries, e = .broken entries := by
  constructor
  · rintro (- | ⟨entries⟩)
    · exact .inl rfl
    · exact .inr ⟨entries,rfl⟩
  · rintro (rfl | ⟨entries,rfl⟩)
    · exact .closed
    · exact .broken entries

/-- What the walk comes to and cannot read: an entry that it cannot look at, or a directory that it
would enter and cannot list to its end. -/
def Obstructs (root : Entry) (names : List OsText) : Prop :=
  root.ComesTo names .unknown ∨
    (∃ e, e.Unlisted ∧ root.ComesTo names e) ∧ ∀ name, names.getLast? = some name → ¬LeftOut name

@[simp] theorem at?_nil (root : Entry) : root.at? [] = some root := rfl

theorem at?_cons (root : Entry) (name : OsText) (names : List OsText) :
    root.at? (name :: names) = (named? name root.entries).bind (·.at? names) := rfl

theorem at?_singleton (root : Entry) (name : OsText) :
    root.at? [name] = named? name root.entries := by simp [at?_cons]

theorem at?_cons_of_named? {inner : Entry} (h : named? name root.entries = some inner)
    (names : List OsText) : root.at? (name :: names) = inner.at? names := by
  rw [at?_cons,h]
  rfl

theorem comesTo_nil : root.ComesTo [] e ↔ root = e := by
  constructor
  · rintro ⟨ha,-⟩
    exact Option.some.inj ha
  · rintro rfl
    exact ⟨rfl,fun front name back h => by simp at h⟩

theorem comesTo_singleton : root.ComesTo [name] e ↔ named? name root.entries = some e := by
  constructor
  · rintro ⟨h,-⟩
    exact at?_singleton root name ▸ h
  · refine fun h => ⟨(at?_singleton root name).trans h,fun front n back he hb => ?_⟩
    cases front with
    | nil => exact absurd (List.cons.inj he).2.symm hb
    | cons m front => simp at he

/-- Behind a name the walk goes on in the directory of that name. -/
theorem comesTo_cons (hn : names ≠ []) :
    root.ComesTo (name :: names) e ↔ ¬LeftOut name ∧
      ∃ inner, named? name root.entries = some (.directory inner) ∧
        (Entry.directory inner).ComesTo names e := by
  constructor
  · rintro ⟨ha,hall⟩
    obtain ⟨hs,inner,hi⟩ := hall [] name names rfl hn
    have hi : named? name root.entries = some (.directory inner) := at?_singleton root name ▸ hi
    refine ⟨hs,inner,hi,at?_cons_of_named? hi names ▸ ha,fun front n back he hb => ?_⟩
    obtain ⟨hs',inner',hi'⟩ := hall (name :: front) n back (by rw [he]; rfl) hb
    exact ⟨hs',inner',at?_cons_of_named? hi (front ++ [n]) ▸ hi'⟩
  · rintro ⟨hs,inner,hi,ha,hall⟩
    refine ⟨(at?_cons_of_named? hi names).trans ha,fun front n back he hb => ?_⟩
    cases front with
    | nil =>
      obtain ⟨rfl,rfl⟩ := List.cons.inj he
      exact ⟨hs,inner,at?_cons_of_named? hi []⟩
    | cons m front =>
      obtain ⟨rfl,he'⟩ := List.cons.inj he
      obtain ⟨hs',inner',hi'⟩ := hall front n back he' hb
      exact ⟨hs',inner',(at?_cons_of_named? hi (front ++ [n])).trans hi'⟩

theorem HasSource.ne_nil (h : root.HasSource names) : names ≠ [] := by
  obtain ⟨name,hl,-⟩ := h.isSource
  rintro rfl
  cases hl

theorem hasSource_singleton :
    root.HasSource [name] ↔
      (∃ text, named? name root.entries = some (.file text)) ∧ NamesSource name := by
  constructor
  · rintro ⟨⟨text,hc⟩,n,hn,hs⟩
    obtain rfl := Option.some.inj hn
    exact ⟨⟨text,comesTo_singleton.mp hc⟩,hs⟩
  · rintro ⟨⟨text,hc⟩,hs⟩
    exact ⟨⟨text,comesTo_singleton.mpr hc⟩,name,rfl,hs⟩

theorem hasSource_cons (hn : names ≠ []) :
    root.HasSource (name :: names) ↔ ¬LeftOut name ∧
      ∃ inner, named? name root.entries = some (.directory inner) ∧
        (Entry.directory inner).HasSource names := by
  have hl : (name :: names).getLast? = names.getLast? :=
    List.getLast?_append_of_ne_nil [name] hn
  constructor
  · rintro ⟨⟨text,hc⟩,n,hn',hs⟩
    obtain ⟨hd,inner,hi,hc⟩ := (comesTo_cons hn).mp hc
    exact ⟨hd,inner,hi,⟨text,hc⟩,n,hl ▸ hn',hs⟩
  · rintro ⟨hd,inner,hi,⟨text,hc⟩,n,hn',hs⟩
    exact ⟨⟨text,(comesTo_cons hn).mpr ⟨hd,inner,hi,hc⟩⟩,n,hl.trans hn',hs⟩

theorem obstructs_cons (hn : names ≠ []) :
    root.Obstructs (name :: names) ↔ ¬LeftOut name ∧
      ∃ inner, named? name root.entries = some (.directory inner) ∧
        (Entry.directory inner).Obstructs names := by
  have hl : (name :: names).getLast? = names.getLast? :=
    List.getLast?_append_of_ne_nil [name] hn
  rw [Obstructs,comesTo_cons hn,hl]
  constructor
  · rintro (⟨hd,inner,hi,hc⟩ | ⟨⟨e,he,hc⟩,hs⟩)
    · exact ⟨hd,inner,hi,.inl hc⟩
    · obtain ⟨hd,inner,hi,hc⟩ := (comesTo_cons hn).mp hc
      exact ⟨hd,inner,hi,.inr ⟨⟨e,he,hc⟩,hs⟩⟩
  · rintro ⟨hd,inner,hi,hc | ⟨⟨e,he,hc⟩,hs⟩⟩
    · exact .inl ⟨hd,inner,hi,hc⟩
    · exact .inr ⟨⟨e,he,(comesTo_cons hn).mpr ⟨hd,inner,hi,hc⟩⟩,hs⟩

theorem obstructs_singleton :
    root.Obstructs [name] ↔ named? name root.entries = some .unknown ∨
      (∃ e, e.Unlisted ∧ named? name root.entries = some e) ∧ ¬LeftOut name := by
  simp [Obstructs,comesTo_singleton]

/-- A directory that is listed to its end is no obstacle itself. -/
theorem not_obstructs_nil : ¬(Entry.directory entries).Obstructs [] := by
  rintro (hc | ⟨⟨e,he,hc⟩,-⟩)
  · cases comesTo_nil.mp hc
  · cases comesTo_nil.mp hc
    cases he

end Entry

section Walking

variable {entries : List (OsText × Entry)} {path file : OsText} {files : List OsText}

theorem sourcesAmong_cons (path : OsText) (p : OsText × Entry) (entries : List (OsText × Entry)) :
    sourcesAmong path (p :: entries) =
      (p.2.sources (Path.join path p.1) p.1).bind fun here =>
        (sourcesAmong path entries).map (here ++ ·) := by
  obtain ⟨name,e⟩ := p
  rw [sourcesAmong]
  cases e.sources (Path.join path name) name with
  | error _ => rfl
  | ok here => cases sourcesAmong path entries <;> rfl

/-- The walk of a directory ends well if the walk of every entry does. -/
theorem exists_sourcesAmong_iff :
    (∃ files, sourcesAmong path entries = .ok files) ↔
      ∀ p ∈ entries, ∃ here, p.2.sources (Path.join path p.1) p.1 = .ok here := by
  induction entries with
  | nil => simp [sourcesAmong]
  | cons p entries ih =>
    rw [sourcesAmong_cons,List.forall_mem_cons,← ih]
    cases p.2.sources (Path.join path p.1) p.1 with
    | error _ => simp [Except.bind]
    | ok here => cases sourcesAmong path entries <;> simp [Except.bind,Except.map]

theorem mem_sourcesAmong (h : sourcesAmong path entries = .ok files) :
    file ∈ files ↔ ∃ p ∈ entries, ∃ here,
      p.2.sources (Path.join path p.1) p.1 = .ok here ∧ file ∈ here := by
  induction entries generalizing files with
  | nil =>
    cases h
    simp
  | cons p entries ih =>
    rw [sourcesAmong_cons] at h
    cases hp : p.2.sources (Path.join path p.1) p.1 with
    | error _ => rw [hp] at h; cases h
    | ok here =>
      cases hr : sourcesAmong path entries with
      | error _ => rw [hp,hr] at h; cases h
      | ok rest =>
        rw [hp,hr] at h
        cases h
        simp [hp,ih hr]

namespace Entry

variable {root e : Entry} {name : OsText} {names : List OsText}

/-- The walk never comes to the end of a list that breaks off. -/
theorem sources_broken {inner : List (OsText × Entry)} :
    (Entry.broken inner).sources path name = .ok files ↔
      isSkippedDirectory name = true ∧ files = [] := by
  rw [Entry.sources]
  by_cases hs : isSkippedDirectory name
  · simp [hs,eq_comm]
  · cases sourcesAmong path inner <;> simp [hs,bind,Except.bind]

/-- A source behind a name is the file of that name, or it is below the directory of that name. -/
theorem exists_hasSource_cons_iff (hn : named? name root.entries = some e) :
    (∃ names, root.HasSource (name :: names) ∧ file = Path.joined path (name :: names)) ↔
      ((∃ text, e = .file text) ∧ NamesSource name ∧ file = Path.join path name) ∨
      (¬LeftOut name ∧ ∃ inner, e = .directory inner ∧
        ∃ names, e.HasSource names ∧ file = Path.joined (Path.join path name) names) := by
  constructor
  · rintro ⟨names,hs,rfl⟩
    by_cases hnil : names = []
    · subst hnil
      obtain ⟨⟨text,ht⟩,hs⟩ := hasSource_singleton.mp hs
      exact .inl ⟨⟨text,Option.some.inj (hn.symm.trans ht)⟩,hs,rfl⟩
    · obtain ⟨hd,inner,hi,hs⟩ := (hasSource_cons hnil).mp hs
      obtain rfl := Option.some.inj (hn.symm.trans hi)
      exact .inr ⟨hd,inner,rfl,names,hs,rfl⟩
  · rintro (⟨⟨text,rfl⟩,hs,rfl⟩ | ⟨hd,inner,rfl,names,hs,rfl⟩)
    · exact ⟨[],hasSource_singleton.mpr ⟨⟨text,hn⟩,hs⟩,rfl⟩
    · exact ⟨names,(hasSource_cons hs.ne_nil).mpr ⟨hd,inner,hn,hs⟩,rfl⟩

/-- An obstacle behind a name is the entry of that name, or it is below the directory of that name. -/
theorem exists_obstructs_cons_iff (hn : named? name root.entries = some e) :
    (∃ names, root.Obstructs (name :: names)) ↔ e = .unknown ∨
      ¬LeftOut name ∧
        (e.Unlisted ∨ ∃ inner, e = .directory inner ∧ ∃ names, e.Obstructs names) := by
  constructor
  · rintro ⟨names,ho⟩
    by_cases hnil : names = []
    · subst hnil
      rcases obstructs_singleton.mp ho with hu | ⟨⟨e',he,hu⟩,hs⟩
      · exact .inl (Option.some.inj (hn.symm.trans hu))
      · obtain rfl := Option.some.inj (hn.symm.trans hu)
        exact .inr ⟨hs,.inl he⟩
    · obtain ⟨hd,inner,hi,ho⟩ := (obstructs_cons hnil).mp ho
      obtain rfl := Option.some.inj (hn.symm.trans hi)
      exact .inr ⟨hd,.inr ⟨inner,rfl,names,ho⟩⟩
  · rintro (rfl | ⟨hd,he | ⟨inner,rfl,names,ho⟩⟩)
    · exact ⟨[],obstructs_singleton.mpr (.inl hn)⟩
    · exact ⟨[],obstructs_singleton.mpr (.inr ⟨⟨e,he,hn⟩,hd⟩)⟩
    · have hnil : names ≠ [] := by
        rintro rfl
        exact not_obstructs_nil ho
      exact ⟨names,(obstructs_cons hnil).mpr ⟨hd,inner,hn,ho⟩⟩

theorem mem_sources_iff (hn : named? name root.entries = some e)
    (below : ∀ inner files, e = .directory inner →
      sourcesAmong (Path.join path name) inner = .ok files →
      (file ∈ files ↔ ∃ names, e.HasSource names ∧ file = Path.joined (Path.join path name) names))
    (h : e.sources (Path.join path name) name = .ok files) :
    file ∈ files ↔ ∃ names, root.HasSource (name :: names) ∧
      file = Path.joined path (name :: names) := by
  rw [exists_hasSource_cons_iff hn,← isSourceFile_iff,← isSkippedDirectory_iff]
  cases e with
  | file text =>
    cases h
    by_cases hs : isSourceFile name <;> simp [hs]
  | directory inner =>
    by_cases hs : isSkippedDirectory name
    · rw [Entry.sources,if_pos hs] at h
      cases h
      simp [hs]
    · rw [Entry.sources,if_neg hs] at h
      simp [hs,below inner files rfl h]
  | link target => cases h; simp
  | special text => cases h; simp
  | closed =>
    rw [Entry.sources] at h
    split at h
    · cases h
      simp
    · cases h
  | broken inner =>
    rw [sources_broken] at h
    obtain rfl := h.2
    simp
  | unknown => cases h

/-- The walk of an entry ends well if there is no obstacle at its name or below it. -/
theorem exists_sources_iff (path : OsText) (hn : named? name root.entries = some e)
    (below : ∀ inner, e = .directory inner →
      ((∃ files, sourcesAmong (Path.join path name) inner = .ok files) ↔
        ¬∃ names, e.Obstructs names)) :
    (∃ files, e.sources (Path.join path name) name = .ok files) ↔
      ¬∃ names, root.Obstructs (name :: names) := by
  rw [exists_obstructs_cons_iff hn,← isSkippedDirectory_iff]
  cases e with
  | directory inner =>
    by_cases hs : isSkippedDirectory name
    · simp [Entry.sources,hs]
    · have hu : ¬(Entry.directory inner).Unlisted := nofun
      simpa [Entry.sources,hs,hu] using below inner rfl
  | closed => by_cases hs : isSkippedDirectory name <;> simp [Entry.sources,hs,Unlisted.closed]
  | broken inner => simp [sources_broken,Unlisted.broken inner]
  | unknown => simp [Entry.sources]
  | _ => simp [Entry.sources,unlisted_iff]

end Entry

theorem nodup_of_parts (hp : path ≠ .empty) (hd : (entries.map Prod.fst).Nodup)
    (h : sourcesAmong path entries = .ok files)
    (hpart : ∀ p ∈ entries, ∀ here, p.2.sources (Path.join path p.1) p.1 = .ok here → here.Nodup ∧
      ∀ file ∈ here, ∃ names, file = Path.joined path (p.1 :: names) ∧
        ∀ name ∈ p.1 :: names, Path.IsName name) : files.Nodup := by
  induction entries generalizing files with
  | nil =>
    cases h
    exact List.nodup_nil
  | cons p entries ih =>
    rw [List.map_cons,List.nodup_cons] at hd
    rw [sourcesAmong_cons] at h
    cases hh : p.2.sources (Path.join path p.1) p.1 with
    | error _ => rw [hh] at h; cases h
    | ok here =>
      cases hr : sourcesAmong path entries with
      | error _ => rw [hh,hr] at h; cases h
      | ok rest =>
        rw [hh,hr] at h
        cases h
        obtain ⟨hnodup,hhere⟩ := hpart p List.mem_cons_self here hh
        have hrest := ih hd.2 hr fun q hq => hpart q (List.mem_cons_of_mem _ hq)
        refine List.nodup_append.mpr ⟨hnodup,hrest,?_⟩
        rintro file hf _ hg rfl
        obtain ⟨names,he,hname⟩ := hhere file hf
        obtain ⟨q,hq,there,ht,hg⟩ := (mem_sourcesAmong hr).mp hg
        obtain ⟨names',he',hname'⟩ := (hpart q (List.mem_cons_of_mem _ hq) there ht).2 file hg
        have hnames := Path.names_inj hp hname hname' (congrArg _ (he.symm.trans he'))
        exact hd.1 (List.mem_map.mpr ⟨q,hq,(List.cons.inj hnames).1.symm⟩)

namespace Entry.WellFormed

variable {root e : Entry} {names : List OsText}

theorem mem_iff (hw : root.WellFormed) {p : OsText × Entry} :
    p ∈ root.entries ↔ named? p.1 root.entries = some p.2 := by
  cases hw with
  | intro _ hd _ => exact (named?_eq_some_iff hd).symm

/-- The first of the names that lead to an entry is in the directory. -/
theorem exists_mem_of_at? (hw : root.WellFormed) (hn : names ≠ []) (h : root.at? names = some e) :
    ∃ p ∈ root.entries, ∃ rest, names = p.1 :: rest := by
  obtain ⟨name,rest,rfl⟩ := List.exists_cons_of_ne_nil hn
  obtain ⟨inner,hi,-⟩ := Option.bind_eq_some_iff.mp h
  exact ⟨(name,inner),hw.mem_iff.mpr hi,rest,rfl⟩

/-- Names that lead to an entry are names a directory may use. -/
theorem isName_of_at? (hw : root.WellFormed) (h : root.at? names = some e) :
    ∀ name ∈ names, Path.IsName name := by
  induction names generalizing root with
  | nil => simp
  | cons name names ih =>
    obtain ⟨inner,hi,ha⟩ := Option.bind_eq_some_iff.mp h
    have hm : (name,inner) ∈ root.entries := hw.mem_iff.mpr hi
    cases hw with
    | intro hn _ hb => exact List.forall_mem_cons.mpr ⟨hn _ hm,ih (hb _ hm) ha⟩

theorem isName_of_hasSource (hw : root.WellFormed) (h : root.HasSource names) :
    ∀ name ∈ names, Path.IsName name := by
  obtain ⟨text,hc,-⟩ := h.comesTo
  exact hw.isName_of_at? hc

theorem mem_sourcesAmong_iff (hw : root.WellFormed) (hr : root = .directory entries)
    (h : sourcesAmong path entries = .ok files) :
    file ∈ files ↔ ∃ names, root.HasSource names ∧ file = Path.joined path names := by
  induction hw generalizing entries path files with
  | @intro root hn hd hb ih =>
    have hw : root.WellFormed := .intro hn hd hb
    subst hr
    rw [mem_sourcesAmong h]
    constructor
    · rintro ⟨p,hp,here,hh,hf⟩
      obtain ⟨names,hs,rfl⟩ := (mem_sources_iff (hw.mem_iff.mp hp)
        (fun inner files he => ih p hp he) hh).mp hf
      exact ⟨_,hs,rfl⟩
    · rintro ⟨names,hs,rfl⟩
      obtain ⟨text,hc⟩ := hs.comesTo
      obtain ⟨p,hp,rest,rfl⟩ := hw.exists_mem_of_at? hs.ne_nil hc.1
      obtain ⟨here,hh⟩ := exists_sourcesAmong_iff.mp ⟨files,h⟩ p hp
      exact ⟨p,hp,here,hh,(mem_sources_iff (hw.mem_iff.mp hp)
        (fun inner files he => ih p hp he) hh).mpr ⟨rest,hs,rfl⟩⟩

theorem exists_sourcesAmong_iff (path : OsText) (hw : root.WellFormed)
    (hr : root = .directory entries) :
    (∃ files, sourcesAmong path entries = .ok files) ↔ ¬∃ names, root.Obstructs names := by
  induction hw generalizing entries path with
  | @intro root hn hd hb ih =>
    have hw : root.WellFormed := .intro hn hd hb
    subst hr
    have hone {p : OsText × Entry} (hp : p ∈ entries) :=
      exists_sources_iff path (hw.mem_iff.mp hp) fun inner he => ih p hp _ he
    rw [CoverageCounters.exists_sourcesAmong_iff]
    constructor
    · rintro hall ⟨names,ho⟩
      have hnil : names ≠ [] := by
        rintro rfl
        exact not_obstructs_nil ho
      obtain ⟨e,ha⟩ : ∃ e, (Entry.directory entries).at? names = some e := by
        rcases ho with hc | ⟨⟨e,-,hc⟩,-⟩
        · exact ⟨_,hc.1⟩
        · exact ⟨e,hc.1⟩
      obtain ⟨p,hp,rest,rfl⟩ := hw.exists_mem_of_at? hnil ha
      exact (hone hp).mp (hall p hp) ⟨rest,ho⟩
    · intro hno p hp
      exact (hone hp).mpr fun ⟨names,ho⟩ => hno ⟨_,ho⟩

theorem nodup_sourcesAmong (hw : root.WellFormed) (hr : root = .directory entries) (hp : path ≠ .empty)
    (h : sourcesAmong path entries = .ok files) : files.Nodup := by
  induction hw generalizing entries path files with
  | @intro root hn hd hb ih =>
    have hw : root.WellFormed := .intro hn hd hb
    subst hr
    refine nodup_of_parts hp hd h fun p hm here hh => ⟨?_,fun file hf => ?_⟩
    · cases he : p.2 with
      | directory inner =>
        rw [he,Entry.sources] at hh
        split at hh
        · cases hh
          exact List.nodup_nil
        · exact ih p hm he (Path.join_ne_empty hp (hn p hm)) hh
      | file text =>
        rw [he] at hh
        cases hh
        by_cases hs : isSourceFile p.1 <;> simp [hs]
      | closed =>
        rw [he,Entry.sources] at hh
        split at hh
        · cases hh
          exact List.nodup_nil
        · cases hh
      | broken inner =>
        rw [he,sources_broken] at hh
        rw [hh.2]
        exact List.nodup_nil
      | unknown => rw [he] at hh; cases hh
      | _ => rw [he] at hh; cases hh; exact List.nodup_nil
    · obtain ⟨names,hs,rfl⟩ := (mem_sources_iff (hw.mem_iff.mp hm)
        (fun inner files he => (hb p hm).mem_sourcesAmong_iff he) hh).mp hf
      exact ⟨names,rfl,hw.isName_of_hasSource hs⟩

end Entry.WellFormed

end Walking

namespace Entry

/-- Names lead from an entry to another through directories, and over no link. -/
inductive Reaches : Entry → List OsText → Entry → Prop where
  | nil (e : Entry) : Reaches e [] e
  | cons {entries : List (OsText × Entry)} {name : OsText} {names : List OsText} {e f : Entry}
      (isName : Path.IsName name) (named : named? name entries = some e)
      (notLink : ∀ target, e ≠ .link target) (below : Reaches e names f) :
      Reaches (.directory entries) (name :: names) f

variable {top e f : Entry} {links : Nat} {place names : List OsText}

theorem Reaches.at? (h : e.Reaches names f) : e.at? names = some f := by
  induction h with
  | nil => rfl
  | cons _ named _ _ ih => exact (at?_cons_of_named? named _).trans ih

theorem at?_append (top : Entry) (front back : List OsText) :
    top.at? (front ++ back) = (top.at? front).bind (·.at? back) := by
  induction front generalizing top with
  | nil => rfl
  | cons name front ih =>
    rw [List.cons_append,at?_cons,at?_cons]
    cases named? name top.entries with
    | none => rfl
    | some e => exact ih e

/-- Names that lead over no link are followed as they are. -/
theorem Reaches.follow (h : e.Reaches names f) (hp : top.at? place.reverse = some e) :
    top.follow links place (names.map OsText.bytes) = some (names.reverse ++ place) := by
  induction h generalizing place with
  | nil => rw [List.map_nil,Entry.follow]; rfl
  | @cons entries name names e f isName named notLink below ih =>
    have hd : (top.at? place.reverse).bind listed? = some entries := by rw [hp]; rfl
    have hnext : top.at? (name :: place).reverse = some e := by
      rw [List.reverse_cons,at?_append,hp]
      exact (at?_singleton _ name).trans named
    have hfollow := ih hnext
    rw [List.map_cons,Entry.follow,hd]
    dsimp only
    rw [isName.not_isIdle,if_neg Bool.false_ne_true,if_neg isName.2.2.1]
    have named : named? ⟨name.bytes⟩ entries = some e := named
    rw [named,List.reverse_cons,List.append_assoc]
    cases e with
    | link target => exact absurd rfl (notLink target)
    | _ => exact hfollow

end Entry

namespace World

variable {w : World} {root : OsText} {e : Entry}

theorem ne_empty_of_entry (he : w.entry? root = some e) : root ≠ .empty := by
  rintro rfl
  cases he

theorem wellFormed_of_entry (hw : w.top.WellFormed) (he : w.entry? root = some e) :
    e.WellFormed := by
  unfold entry? at he
  have hr : root.isEmpty = false := OsText.isEmpty_eq_false_iff.mpr (ne_empty_of_entry he)
  rw [hr,if_neg Bool.false_ne_true] at he
  obtain ⟨place,-,ha⟩ := Option.bind_eq_some_iff.mp he
  exact hw.at? ha

theorem sources_eq_of_entry {entries : List (OsText × Entry)}
    (he : w.entry? root = some (.directory entries)) :
    w.sources root = (sourcesAmong root entries).map (·.mergeSort Path.le) := by
  rw [sources,he]

/-- A directory whose list breaks off has no sources. -/
theorem exists_error_of_broken {entries : List (OsText × Entry)}
    (he : w.entry? root = some (.broken entries)) : ∃ error, w.sources root = .error error := by
  rw [sources,he]
  dsimp only
  cases sourcesAmong root entries with
  | error error => exact ⟨error,rfl⟩
  | ok _ => exact ⟨.entry,rfl⟩

theorem exists_directory_of_sources {files : List OsText} (he : w.entry? root = some e)
    (hd : e.isDirectory = true) (h : w.sources root = .ok files) :
    ∃ entries found, e = .directory entries ∧ sourcesAmong root entries = .ok found ∧
      files = found.mergeSort Path.le := by
  cases e with
  | directory entries =>
    rw [sources_eq_of_entry he] at h
    cases hf : sourcesAmong root entries with
    | error _ => rw [hf] at h; cases h
    | ok found =>
      rw [hf] at h
      cases h
      exact ⟨entries,found,rfl,hf,rfl⟩
  | closed =>
    rw [sources,he] at h
    cases h
  | broken entries =>
    obtain ⟨error,hs⟩ := exists_error_of_broken he
    cases hs.symm.trans h
  | _ => cases hd

/-- What the walk of a directory ends with is what it comes to below it. -/
theorem mem_sources_iff {files : List OsText} {file : OsText} (hw : w.top.WellFormed)
    (he : w.entry? root = some e) (hd : e.isDirectory = true) (h : w.sources root = .ok files) :
    file ∈ files ↔ ∃ names, e.HasSource names ∧ file = Path.joined root names := by
  obtain ⟨entries,found,rfl,hf,rfl⟩ := exists_directory_of_sources he hd h
  rw [List.mem_mergeSort]
  exact (wellFormed_of_entry hw he).mem_sourcesAmong_iff rfl hf

theorem nodup_sources {files : List OsText} (hw : w.top.WellFormed) (he : w.entry? root = some e)
    (hd : e.isDirectory = true) (h : w.sources root = .ok files) : files.Nodup := by
  obtain ⟨entries,found,rfl,hf,rfl⟩ := exists_directory_of_sources he hd h
  exact (List.mergeSort_perm found Path.le).nodup_iff.mpr
    ((wellFormed_of_entry hw he).nodup_sourcesAmong rfl (ne_empty_of_entry he) hf)

/-- A path of names that lead over no link is looked up by the names. -/
theorem entry?_joined {name : OsText} {names : List OsText} (hd : w.workingDirectory = [])
    (hn : ∀ n ∈ name :: names, Path.IsName n) (h : w.top.Reaches (name :: names) e) :
    w.entry? (Path.joined name names) = some e := by
  have hb := Path.bytes_joined_name hn
  have hempty : (Path.joined name names).isEmpty = false := by
    rw [OsText.isEmpty,hb,List.isEmpty_eq_false_iff]
    exact Path.joinSlash_ne_nil (List.cons_ne_nil _ _) hn
  have hstart : w.start (Path.joined name names) = [] := by
    rw [start,Path.isAbsolute,hb,decide_eq_false (Path.head?_joinSlash (List.cons_ne_nil _ _) hn),hd]
    rfl
  have hf : w.top.follow maxLinks [] ((name :: names).map OsText.bytes) = some (name :: names).reverse := by
    rw [h.follow rfl,List.append_nil]
  unfold entry?
  rw [hempty,if_neg Bool.false_ne_true,hstart,Path.segments_joined_name hn,hf,Option.bind_some,
    List.reverse_reverse]
  exact h.at?

end World
end CoverageCounters
