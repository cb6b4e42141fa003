import Mathlib.Data.List.Nodup
import CoverageCounters.Proofs.GitClaims
import CoverageCounters.Proofs.PathRecording
import CoverageCounters.Proofs.TreeWalk
import CoverageCounters.World.Tree

/-!
Runs over the sources below a root. Each selected file is counted as skipped or has its coverage under
its recorded path, as long as no two of them are recorded under one path. Two are if a backslash or a
name that is no text is on the way to them.
-/

namespace CoverageCounters

namespace CoverageSet

variable {path key : String} {c d : FileCoverage} {entries : List (String × FileCoverage)}
  {s : CoverageSet}

def keys (s : CoverageSet) : List String := s.entries.map Prod.fst

theorem mem_keys_insert : key ∈ (s.insert path c).keys ↔ key = path ∨ key ∈ s.keys := by
  obtain ⟨entries⟩ := s
  unfold keys insert
  dsimp only
  induction entries with
  | nil => simp [insertSorted]
  | cons p entries ih =>
    obtain ⟨q,d⟩ := p
    rw [insertSorted]
    split
    · simp
    · split
      · rename_i hq
        subst hq
        simp
      · simp only [List.map_cons,List.mem_cons,ih]
        tauto

/-- A new path is one more entry. -/
theorem insert_perm (h : path ∉ s.keys) :
    (s.insert path c).entries.Perm ((path,c) :: s.entries) := by
  obtain ⟨entries⟩ := s
  unfold keys at h
  unfold insert
  dsimp only at h ⊢
  induction entries with
  | nil => exact .refl _
  | cons p entries ih =>
    obtain ⟨q,d⟩ := p
    simp only [List.map_cons,List.mem_cons,not_or] at h
    rw [insertSorted,if_neg h.1]
    split
    · exact .refl _
    · exact ((ih h.2).cons (q,d)).trans (.swap _ _ _)

theorem get?_eq_some_iff (h : s.keys.Nodup) : s.get? key = some c ↔ (key,c) ∈ s.entries := by
  obtain ⟨entries⟩ := s
  unfold keys at h
  unfold get?
  dsimp only at h ⊢
  induction entries with
  | nil => simp
  | cons p entries ih =>
    obtain ⟨q,d⟩ := p
    rw [List.map_cons,List.nodup_cons] at h
    by_cases hq : q = key
    · subst hq
      have hm : (q,c) ∉ entries := fun hm => h.1 (List.mem_map.mpr ⟨_,hm,rfl⟩)
      simp [hm,eq_comm]
    · have hq' : key ≠ q := fun he => hq he.symm
      simpa [hq,hq'] using ih h.2

end CoverageSet

namespace TreeCoverage

variable {record : OsText → String} {result : OsText → Except SourceError Outcome}
  {t : TreeCoverage} {files : List OsText}

def addAll (record : OsText → String) (result : OsText → Except SourceError Outcome)
    (t : TreeCoverage) (files : List OsText) : TreeCoverage :=
  files.foldl (fun t file => t.add (record file) (result file)) t

/-- Every file without a result is counted once. -/
theorem skipped_addAll :
    (addAll record result t files).skipped =
      t.skipped + files.countP fun file => !(result file).isOk := by
  induction files generalizing t with
  | nil => rfl
  | cons file files ih =>
    rw [addAll,List.foldl_cons,← addAll,ih,List.countP_cons]
    cases result file with
    | error _ => simp [add,Except.isOk,Except.toBool]; omega
    | ok outcome => simp [add,Except.isOk,Except.toBool]

/-- The paths of a run are those of the files that have a result. -/
theorem mem_keys_addAll {key : String} :
    key ∈ (addAll record result t files).files.keys ↔
      key ∈ t.files.keys ∨ ∃ file ∈ files, (result file).isOk = true ∧ key = record file := by
  induction files generalizing t with
  | nil => simp [addAll]
  | cons file files ih =>
    rw [addAll,List.foldl_cons,← addAll,ih]
    cases hr : result file with
    | error _ => simp [add,hr,Except.isOk,Except.toBool]
    | ok outcome =>
      simp only [add,CoverageSet.mem_keys_insert,List.exists_mem_cons_iff,hr,Except.isOk,
        Except.toBool,true_and]
      tauto

def entryOf (record : OsText → String) (result : OsText → Except SourceError Outcome)
    (file : OsText) : Option (String × FileCoverage) :=
  (result file).toOption.map fun outcome => (record file,outcome.coverage)

/-- If no path is recorded twice, the entries of a run are those of its files. -/
theorem addAll_perm (hd : (files.map record).Nodup)
    (ht : ∀ file ∈ files, record file ∉ t.files.keys) :
    (addAll record result t files).files.entries.Perm
      (t.files.entries ++ files.filterMap (entryOf record result)) := by
  induction files generalizing t with
  | nil => simp [addAll]
  | cons file files ih =>
    rw [List.map_cons,List.nodup_cons] at hd
    rw [addAll,List.foldl_cons,← addAll]
    cases hr : result file with
    | error e =>
      have he : entryOf record result file = none := by rw [entryOf,hr]; rfl
      rw [List.filterMap_cons_none he]
      exact ih hd.2 fun f hf => ht f (List.mem_cons_of_mem _ hf)
    | ok outcome =>
      have he : entryOf record result file = some (record file,outcome.coverage) := by
        rw [entryOf,hr]; rfl
      rw [List.filterMap_cons_some he]
      have hnew := CoverageSet.insert_perm (c := outcome.coverage) (ht file List.mem_cons_self)
      refine (ih hd.2 fun f hf hk => ?_).trans ((hnew.append_right _).trans List.perm_middle.symm)
      rcases CoverageSet.mem_keys_insert.mp hk with he | hk
      · exact hd.1 (he ▸ List.mem_map_of_mem hf)
      · exact ht f (List.mem_cons_of_mem _ hf) hk

theorem keys_entryOf_sublist (record : OsText → String)
    (result : OsText → Except SourceError Outcome) (files : List OsText) :
    ((files.filterMap (entryOf record result)).map Prod.fst).Sublist (files.map record) := by
  induction files with
  | nil => exact .slnil
  | cons file files ih =>
    cases hr : result file with
    | error _ =>
      rw [List.filterMap_cons_none (by rw [entryOf,hr]; rfl)]
      exact .cons _ ih
    | ok outcome =>
      rw [List.filterMap_cons_some (by rw [entryOf,hr]; rfl)]
      exact .cons_cons _ ih

theorem length_entryOf (record : OsText → String) (result : OsText → Except SourceError Outcome)
    (files : List OsText) : (files.filterMap (entryOf record result)).length =
      files.countP fun file => (result file).isOk := by
  rw [List.length_filterMap_eq_countP]
  refine List.countP_congr fun file _ => ?_
  unfold entryOf
  cases result file <;> simp [Except.toOption,Except.isOk,Except.toBool]

/-- If no path is recorded twice, each file with a result has its own entry, and no file is lost. -/
theorem complete_of_nodup (hd : (files.map record).Nodup) :
    (∀ file ∈ files, ∀ outcome, result file = .ok outcome →
      (addAll record result .empty files).files.get? (record file) = some outcome.coverage) ∧
    (addAll record result .empty files).files.size +
      (addAll record result .empty files).skipped = files.length := by
  have hp : (addAll record result .empty files).files.entries.Perm
      (files.filterMap (entryOf record result)) :=
    addAll_perm hd (by simp [empty,CoverageSet.empty,CoverageSet.keys])
  constructor
  · intro file hf outcome ho
    have hk : (addAll record result .empty files).files.keys.Nodup :=
      (hp.map Prod.fst).nodup_iff.mpr (hd.sublist (keys_entryOf_sublist record result files))
    refine (CoverageSet.get?_eq_some_iff hk).mpr (hp.mem_iff.mpr ?_)
    exact List.mem_filterMap.mpr ⟨file,hf,by rw [entryOf,ho]; rfl⟩
  · rw [CoverageSet.size,hp.length_eq,skipped_addAll,length_entryOf,
      List.length_eq_countP_add_countP (fun file => (result file).isOk)]
    simp [empty]

end TreeCoverage

namespace World

variable {w : World} {parse : SourceParser} {root base : OsText} {settings : Settings}
  {options : Options} {style : PathStyle} {batch : Batch} {files : List OsText}

/-- What the pass over a file comes to with a batch of its own. -/
def resultOf (w : World) (parse : SourceParser) (options : Options) (style : PathStyle)
    (base file : OsText) : Except SourceError Outcome :=
  (w.instrumentFile parse file (style.record file base) options (.new none)).1

/-- A pass comes to the same with every batch. -/
theorem outcome_instrument (program : Program) (file : SourceFile) (options : Options)
    (batch batch' : Batch) :
    (instrument program file options batch).outcome =
      (instrument program file options batch').outcome := by
  rcases (⟨program,file,options⟩ : Job).start_cases with ⟨p,o,_,-,-,hi⟩ | ⟨walked,found,-,-,hi⟩
  · rw [hi batch,hi batch']
  · rw [hi batch,hi batch']

theorem instrumentFile_eq_resultOf (file : OsText) (batch : Batch) :
    (w.instrumentFile parse file (style.record file base) options batch).1 =
      w.resultOf parse options style base file := by
  unfold resultOf instrumentFile
  cases w.read? file with
  | none => rfl
  | some text =>
    simp only [instrumentText]
    cases parse (.ofFileName
      (((Path.fileName? file).bind OsText.text?).getD (style.record file base))) text with
    | error _ => rfl
    | ok parsed =>
      dsimp only
      rw [outcome_instrument _ _ _ batch (.new none)]

theorem instrumentFiles_eq (tree : TreeCoverage) (batch : Batch) (files : List OsText) :
    (w.instrumentFiles parse base options style tree batch files).1 =
      tree.addAll (style.record · base) (w.resultOf parse options style base) files := by
  induction files generalizing tree batch with
  | nil => rfl
  | cons file files ih =>
    rw [instrumentFiles,TreeCoverage.addAll,List.foldl_cons,← TreeCoverage.addAll,
      ← instrumentFile_eq_resultOf file batch]
    exact ih _ _

theorem base_of_directory {e : Entry} (he : w.entry? root = some e) (hd : e.isDirectory = true) :
    w.base root = root := by
  rw [base,isFile,he]
  cases e <;> first | rfl | cases hd

/-- The sources at a path: the file itself, or those below the directory. -/
theorem sources_cases (h : w.sources root = .ok files) :
    files.length ≤ 1 ∨ ∃ e, w.entry? root = some e ∧ e.isDirectory = true := by
  unfold sources at h
  split at h
  · cases h
    left
    split <;> simp
  · rename_i entries he
    exact .inr ⟨_,he,rfl⟩
  · cases h
  · rename_i entries he
    exact .inr ⟨_,he,rfl⟩
  · cases h

/-- No source is found twice. -/
theorem nodup_of_sources (hw : w.top.WellFormed) (h : w.sources root = .ok files) :
    files.Nodup := by
  rcases sources_cases h with hl | ⟨e,he,hd⟩
  · match files, hl with
    | [], _ => exact List.nodup_nil
    | [file], _ => exact List.pairwise_singleton _ file
  · exact nodup_sources hw he hd h

/-- Sources whose way from the base is a text without backslashes are recorded under different paths. -/
theorem record_inj_of_sources (hw : w.top.WellFormed) (h : w.sources root = .ok files)
    (style : PathStyle) {file other : OsText} (hf : file ∈ files) (ho : other ∈ files)
    (hb : ∀ rel, Path.below? file (w.base root) = some rel → Path.Plain rel)
    (hb' : ∀ rel, Path.below? other (w.base root) = some rel → Path.Plain rel)
    (he : style.record file (w.base root) = style.record other (w.base root)) : file = other := by
  rcases sources_cases h with hl | ⟨e,hentry,hd⟩
  · match files, hl with
    | [only], _ => rw [List.mem_singleton.mp hf,List.mem_singleton.mp ho]
  · rw [base_of_directory hentry hd] at hb hb' he
    have hroot := ne_empty_of_entry hentry
    have hwe := wellFormed_of_entry hw hentry
    obtain ⟨names,hs,rfl⟩ := (mem_sources_iff hw hentry hd h).mp hf
    obtain ⟨names',hs',rfl⟩ := (mem_sources_iff hw hentry hd h).mp ho
    have hn := hwe.isName_of_hasSource hs
    have hn' := hwe.isName_of_hasSource hs'
    have hb := hb _ (Path.below?_joined hroot hs.ne_nil hn)
    have hb' := hb' _ (Path.below?_joined hroot hs'.ne_nil hn')
    rw [style.record_inj hroot hs.ne_nil hs'.ne_nil hn hn' hb hb' he]

theorem exists_run_of_selected (h : w.selected root settings = .ok files) :
    ∃ after, w.instrumentTree parse root settings options style batch =
      .ok (.addAll (style.record · (w.base root)) (w.resultOf parse options style (w.base root))
        .empty files,after) := by
  rw [instrumentTree,h,← instrumentFiles_eq .empty batch files]
  exact ⟨_,rfl⟩

/-- A run that ends well has taken in all selected files. -/
theorem eq_addAll_of_run {tree : TreeCoverage} {after : Batch}
    (h : w.instrumentTree parse root settings options style batch = .ok (tree,after)) :
    ∃ files, w.selected root settings = .ok files ∧
      tree = .addAll (style.record · (w.base root))
        (w.resultOf parse options style (w.base root)) .empty files := by
  cases hs : w.selected root settings with
  | error _ =>
    rw [instrumentTree,hs] at h
    cases h
  | ok files =>
    obtain ⟨_,hrun⟩ : ∃ b, w.instrumentTree parse root settings options style batch = .ok (_,b) :=
      exists_run_of_selected hs
    exact ⟨files,rfl,(Prod.mk.inj (Except.ok.inj (h.symm.trans hrun))).1⟩

/-- The paths of a run are recorded for files. -/
theorem exists_record_of_mem_keys {tree : TreeCoverage} {after : Batch} {key : String}
    (h : w.instrumentTree parse root settings options style batch = .ok (tree,after))
    (hk : key ∈ tree.files.keys) : ∃ file, key = style.record file (w.base root) := by
  obtain ⟨files,-,rfl⟩ := eq_addAll_of_run h
  rcases TreeCoverage.mem_keys_addAll.mp hk with hk | ⟨file,-,-,rfl⟩
  · simp [TreeCoverage.empty,CoverageSet.empty,CoverageSet.keys] at hk
  · exact ⟨file,rfl⟩

/-- In a run that ends well every selected file that has no result is counted once, and no other is
counted; the path of every other selected file has coverage. If no two selected files are recorded under
one path, each of the others has its own entry, and no file is lost. So it is if the way from the base to
each selected file is a text without backslashes. -/
theorem tree_run_complete {tree : TreeCoverage} {after : Batch} (hw : w.top.WellFormed)
    (h : w.instrumentTree parse root settings options style batch = .ok (tree,after)) :
    ∃ collected, w.sources root = .ok collected ∧ ∃ files,
      files = collected.filter (fun file => settings.selects (Path.relativeTo file (w.base root))) ∧
      files.Nodup ∧
      tree.skipped = files.countP (fun file =>
        !(w.resultOf parse options style (w.base root) file).isOk) ∧
      (∀ path, path ∈ tree.files.keys ↔ ∃ file ∈ files,
        (w.resultOf parse options style (w.base root) file).isOk = true ∧
        path = style.record file (w.base root)) ∧
      ((∀ file ∈ files, ∀ other ∈ files,
          style.record file (w.base root) = style.record other (w.base root) → file = other) →
        (∀ file ∈ files, ∀ outcome,
          w.resultOf parse options style (w.base root) file = .ok outcome →
          tree.files.get? (style.record file (w.base root)) = some outcome.coverage) ∧
        tree.files.size + tree.skipped = files.length) ∧
      ((∀ file ∈ files, ∀ rel, Path.below? file (w.base root) = some rel → Path.Plain rel) →
        ∀ file ∈ files, ∀ other ∈ files,
          style.record file (w.base root) = style.record other (w.base root) → file = other) := by
  obtain ⟨files,hsel,rfl⟩ := eq_addAll_of_run h
  cases hs : w.sources root with
  | error _ => rw [selected,hs] at hsel; cases hsel
  | ok collected =>
    rw [selected,hs] at hsel
    obtain rfl := Except.ok.inj hsel
    refine ⟨collected,rfl,_,rfl,(nodup_of_sources hw hs).filter _,?_,fun path => ?_,fun hinj => ?_,
      fun hb file hf other ho => ?_⟩
    · rw [TreeCoverage.skipped_addAll]
      exact Nat.zero_add _
    · rw [TreeCoverage.mem_keys_addAll]
      simp [TreeCoverage.empty,CoverageSet.empty,CoverageSet.keys]
    · exact TreeCoverage.complete_of_nodup
        (List.Nodup.map_on hinj ((nodup_of_sources hw hs).filter _))
    · exact record_inj_of_sources hw hs style (List.mem_of_mem_filter hf)
        (List.mem_of_mem_filter ho) (hb file hf) (hb other ho)

section Sample

/-- A directory of sources. -/
def sampleTree (entries : List (OsText × Entry)) : World :=
  ⟨.directory [("p",.directory entries)],[],fun _ => none⟩

/-- Settings that select all sources of one kind. -/
def sampleSettings : Settings :=
  { includes := none, excludes := [], coverageVariable := "v", ignoredMethods := [],
    extensions := [".js"], pathLocation := .absolute, pathLead := none, incrementDir := none }

/-- A parser that reads every text as an empty script. -/
def sampleParser : SourceParser := fun _ _ => .ok ⟨⟨.script,.ofBounds 1 1,[],[]⟩,.empty⟩

variable {name inner : OsText} {entries below : List (OsText × Entry)} {text : Option String} {e : Entry}

theorem isName_p : Path.IsName "p" := by decide

theorem entry?_sampleTree (entries : List (OsText × Entry)) :
    World.entry? (sampleTree entries) "p" = some (.directory entries) := by
  have hr : (sampleTree entries).top.Reaches ["p"] (.directory entries) :=
    .cons isName_p (by simp [Entry.named?]) (by simp) (.nil _)
  exact entry?_joined rfl (List.forall_mem_singleton.mpr isName_p) hr

/-- A file of the directory that names lead to. -/
theorem read?_sampleTree {names : List OsText} (hn : ∀ name ∈ names, Path.IsName name)
    (h : (Entry.directory entries).Reaches names (.file text)) :
    (sampleTree entries).read? (Path.joined "p" names) = text := by
  have hr : (sampleTree entries).top.Reaches ("p" :: names) (.file text) :=
    .cons isName_p (by simp [Entry.named?]) (by simp) h
  rw [read?,entry?_joined rfl (List.forall_mem_cons.mpr ⟨isName_p,hn⟩) hr]

theorem selected_sampleTree {files : List OsText} (hs : sourcesAmong "p" entries = .ok files)
    (hle : files.Pairwise fun a b => Path.le a b = true)
    (hsel : ∀ file ∈ files, sampleSettings.selects (Path.relativeTo file "p") = true) :
    (sampleTree entries).selected "p" sampleSettings = .ok files := by
  rw [selected,sources_eq_of_entry (entry?_sampleTree entries),hs,
    base_of_directory (entry?_sampleTree entries) rfl]
  have hsort := List.mergeSort_of_pairwise hle
  simp only [Except.map,hsort]
  rw [List.filter_eq_self.mpr hsel]

/-- An empty script is always instrumented. -/
theorem exists_resultOf {w : World} {file : OsText} {text : String} (h : w.read? file = some text) :
    ∃ outcome, w.resultOf sampleParser {} style base file = .ok outcome := by
  rw [resultOf,instrumentFile,h]
  simp only [instrumentText,sampleParser]
  unfold instrument
  split
  · exact ⟨_,rfl⟩
  · split
    · exact ⟨_,rfl⟩
    · exact ⟨_,rfl⟩

/-- Two files that are recorded under one path have one entry. -/
theorem lost_of_record_eq {file other : OsText} {style : PathStyle} {text text' : String}
    (hsel : (sampleTree entries).selected "p" sampleSettings = .ok [file,other])
    (hf : (sampleTree entries).read? file = some text)
    (ho : (sampleTree entries).read? other = some text')
    (hsame : style.record other "p" = style.record file "p") :
    ∃ tree after, (sampleTree entries).instrumentTree sampleParser "p" sampleSettings {} style
      (.new none) = .ok (tree,after) ∧ tree.skipped = 0 ∧ tree.files.size = 1 := by
  have hbase : (sampleTree entries).base "p" = "p" := base_of_directory (entry?_sampleTree _) rfl
  obtain ⟨after,hrun⟩ : ∃ after, (sampleTree entries).instrumentTree sampleParser "p"
      sampleSettings {} style (.new none) = .ok (_,after) := exists_run_of_selected hsel
  obtain ⟨outcome,hok⟩ : ∃ outcome, (sampleTree entries).resultOf sampleParser {} style "p" file =
      .ok outcome := exists_resultOf hf
  obtain ⟨outcome',hok'⟩ : ∃ outcome, (sampleTree entries).resultOf sampleParser {} style "p" other =
      .ok outcome := exists_resultOf ho
  rw [hbase] at hrun
  refine ⟨_,after,hrun,?_,?_⟩
  · rw [TreeCoverage.skipped_addAll]
    simp [hok,hok',Except.isOk,Except.toBool,TreeCoverage.empty]
  · simp [TreeCoverage.addAll,hok,hok',hsame,TreeCoverage.add,TreeCoverage.empty,
      CoverageSet.insert,CoverageSet.empty,CoverageSet.size,CoverageSet.insertSorted]

/-- A file in a directory, and another beside the directory. -/
def besideTree (directory inner file : OsText) (text : Option String) : List (OsText × Entry) :=
  [(directory,.directory [(inner,.file (some ""))]),(file,.file text)]

section Beside

variable {directory inner file : OsText}

theorem read?_inner (hd : Path.IsName directory) (hi : Path.IsName inner) (file : OsText)
    (text : Option String) :
    (sampleTree (besideTree directory inner file text)).read? (Path.joined "p" [directory,inner]) =
      some "" :=
  read?_sampleTree (by simp [hd,hi])
    (.cons hd (if_pos rfl) (by simp) (.cons hi (if_pos rfl) (by simp) (.nil _)))

theorem read?_file (hf : Path.IsName file) (hne : directory ≠ file) (inner : OsText)
    (text : Option String) :
    (sampleTree (besideTree directory inner file text)).read? (Path.joined "p" [file]) = text :=
  read?_sampleTree (List.forall_mem_singleton.mpr hf)
    (.cons hf ((if_neg hne).trans (if_pos rfl)) (by simp) (.nil _))

theorem wellFormed_besideTree (hd : Path.IsName directory) (hi : Path.IsName inner)
    (hf : Path.IsName file) (hne : directory ≠ file) (text : Option String) :
    (sampleTree (besideTree directory inner file text)).top.WellFormed := by
  have hinner : (Entry.directory [(inner,.file (some ""))]).WellFormed :=
    .directory (List.forall_mem_singleton.mpr ⟨hi,.of_entries_eq_nil rfl⟩) (by simp)
  have hbeside : (Entry.directory (besideTree directory inner file text)).WellFormed := by
    refine .directory ?_ (by simp [besideTree,hne])
    simp only [besideTree,List.forall_mem_cons]
    exact ⟨⟨hd,hinner⟩,⟨hf,.of_entries_eq_nil rfl⟩,by simp⟩
  exact .directory (List.forall_mem_singleton.mpr ⟨isName_p,hbeside⟩) (by simp)

end Beside

/-- One of two files cannot be read. -/
theorem tree_run_complete_sample :
    (sampleTree (besideTree "a" "b.js" "c.js" none)).top.WellFormed ∧ ∃ tree after,
      (sampleTree (besideTree "a" "b.js" "c.js" none)).instrumentTree sampleParser "p"
        sampleSettings {} .absolute (.new none) = .ok (tree,after) ∧
      (∃ c, tree.files.get? "p/a/b.js" = some c) ∧ tree.skipped = 1 ∧ tree.files.size = 1 := by
  have ha : Path.IsName "a" := by decide
  have hb : Path.IsName "b.js" := by decide
  have hc : Path.IsName "c.js" := by decide
  have hne : ("a" : OsText) ≠ "c.js" := by simp
  have hw := wellFormed_besideTree ha hb hc hne none
  have hsel : (sampleTree (besideTree "a" "b.js" "c.js" none)).selected "p" sampleSettings =
      .ok [Path.joined "p" ["a","b.js"],Path.joined "p" ["c.js"]] :=
    selected_sampleTree rfl (by decide +kernel) (by decide +kernel)
  have hbase : (sampleTree (besideTree "a" "b.js" "c.js" none)).base "p" = "p" :=
    base_of_directory (entry?_sampleTree _) rfl
  obtain ⟨outcome,hok⟩ : ∃ outcome, (sampleTree (besideTree "a" "b.js" "c.js" none)).resultOf
      sampleParser {} .absolute "p" (Path.joined "p" ["a","b.js"]) = .ok outcome :=
    exists_resultOf (read?_inner ha hb "c.js" none)
  have herror : (sampleTree (besideTree "a" "b.js" "c.js" none)).resultOf sampleParser {} .absolute
      "p" (Path.joined "p" ["c.js"]) = .error (.unreadable (Path.joined "p" ["c.js"])) := by
    rw [resultOf,instrumentFile,read?_file hc hne]
  obtain ⟨tree,after,hrun⟩ : ∃ tree after, (sampleTree (besideTree "a" "b.js" "c.js" none)).instrumentTree
      sampleParser "p" sampleSettings {} .absolute (.new none) = .ok (tree,after) :=
    ⟨_,exists_run_of_selected hsel⟩
  obtain ⟨collected,hcol,files,hf,-,hskip,-,hown,hinj⟩ := tree_run_complete hw hrun
  rw [selected,hcol,hbase] at hsel
  rw [hbase] at hf hskip hown hinj
  obtain rfl := hf.trans (Except.ok.inj hsel)
  have hplain : ∀ file ∈ [Path.joined "p" ["a","b.js"],Path.joined "p" ["c.js"]], ∀ rel,
      Path.below? file "p" = some rel → Path.Plain rel := by
    intro file hfile rel hrel
    rcases List.mem_pair.mp hfile with rfl | rfl
    · rw [Path.below?_joined isName_p.ne_empty (by simp) (by simp [ha,hb])] at hrel
      exact ⟨"a/b.js",by rw [← Option.some.inj hrel]; rfl,by decide⟩
    · rw [Path.below?_joined isName_p.ne_empty (by simp) (by simp [hc])] at hrel
      exact ⟨"c.js",by rw [← Option.some.inj hrel]; rfl,by decide⟩
  obtain ⟨hget,hsize⟩ := hown (hinj hplain)
  have hone : tree.skipped = 1 := by
    rw [hskip,List.countP_cons,List.countP_cons,hok,herror]
    rfl
  have hpath : PathStyle.record .absolute (Path.joined "p" ["a","b.js"]) "p" = "p/a/b.js" := by decide
  rw [hone] at hsize
  exact ⟨hw,tree,after,hrun,⟨_,hpath ▸ hget _ List.mem_cons_self outcome hok⟩,hone,
    Nat.succ.inj hsize⟩

/-- A file whose name has a backslash takes the place of the file it looks like. -/
theorem backslash_file_lost :
    (sampleTree (besideTree "a" "b.js" "a\\b.js" (some ""))).selected "p" sampleSettings =
        .ok ["p/a/b.js","p/a\\b.js"] ∧
      ∃ tree after, (sampleTree (besideTree "a" "b.js" "a\\b.js" (some ""))).instrumentTree
        sampleParser "p" sampleSettings {} .absolute (.new none) = .ok (tree,after) ∧
        tree.skipped = 0 ∧ tree.files.size = 1 := by
  have hsel : (sampleTree (besideTree "a" "b.js" "a\\b.js" (some ""))).selected "p" sampleSettings =
      .ok [Path.joined "p" ["a","b.js"],Path.joined "p" ["a\\b.js"]] :=
    selected_sampleTree rfl (by decide +kernel) (by decide +kernel)
  exact ⟨hsel,lost_of_record_eq hsel (read?_inner (by decide) (by decide) _ _)
    (read?_file (by decide) (by simp) _ _) (by decide)⟩

/-- Two directories that each hold a file of one name. -/
def twinTree (left right inner : OsText) : List (OsText × Entry) :=
  [(left,.directory [(inner,.file (some ""))]),(right,.directory [(inner,.file (some ""))])]

theorem read?_twin {left right inner directory : OsText} (hd : Path.IsName directory)
    (hi : Path.IsName inner)
    (hm : Entry.named? directory (twinTree left right inner) =
      some (.directory [(inner,.file (some ""))])) :
    (sampleTree (twinTree left right inner)).read? (Path.joined "p" [directory,inner]) = some "" :=
  read?_sampleTree (by simp [hd,hi]) (.cons hd hm (by simp) (.cons hi (if_pos rfl) (by simp) (.nil _)))

/-- Of two directories whose names are no texts one takes the place of the other. -/
theorem undecodable_file_lost :
    let left : OsText := ⟨[0x64,0xfe]⟩
    let right : OsText := ⟨[0x64,0xff]⟩
    (sampleTree (twinTree left right "a.js")).selected "p" sampleSettings =
        .ok [Path.joined "p" [left,"a.js"],Path.joined "p" [right,"a.js"]] ∧
      ∃ tree after, (sampleTree (twinTree left right "a.js")).instrumentTree
        sampleParser "p" sampleSettings {} .absolute (.new none) = .ok (tree,after) ∧
        tree.skipped = 0 ∧ tree.files.size = 1 := by
  intro left right
  have hsel : (sampleTree (twinTree left right "a.js")).selected "p" sampleSettings =
      .ok [Path.joined "p" [left,"a.js"],Path.joined "p" [right,"a.js"]] :=
    selected_sampleTree rfl (by decide +kernel) (by decide +kernel)
  have hne : left ≠ right := by decide
  exact ⟨hsel,lost_of_record_eq hsel (read?_twin (by decide) (by decide) (if_pos rfl))
    (read?_twin (by decide) (by decide) ((if_neg hne).trans (if_pos rfl))) (by decide)⟩

end Sample

end World
end CoverageCounters
