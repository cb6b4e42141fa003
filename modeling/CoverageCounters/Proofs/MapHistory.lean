import CoverageCounters.Coverage.Map

/-!
Coverage maps over any history of calls. A call is refused and leaves the map as it was, or it puts one
record with a count of zero at the end of its table. So the counts stand beside the records whatever
calls came before, a record once registered stays where it is, and a closed map takes none.
-/

namespace CoverageCounters

namespace CoverageMap

/-- A call on a coverage map. -/
inductive Call where
  | statement (loc : Location)
  | function (name : Option String) (decl loc : Location)
  | branch (kind : BranchKind) (loc : Location)
  | path (branch : Nat) (loc : Location)
  | sourceMap (map : Json)
  | freeze

/-- Whether a call registers something. -/
def Call.registers : Call → Bool
  | statement _ | function _ _ _ | branch _ _ | path _ _ => true
  | sourceMap _ | freeze => false

def registered (answer : Except InstrumentError Nat × CoverageMap) :
    Except InstrumentError (Option Nat) × CoverageMap :=
  (answer.1.map some,answer.2)

def perform (m : CoverageMap) : Call → Except InstrumentError (Option Nat) × CoverageMap
  | .statement loc => registered (m.newStatement loc)
  | .function name decl loc => registered (m.newFunction name decl loc)
  | .branch kind loc => registered (m.newBranch kind loc)
  | .path b loc => registered (m.addBranchPath b loc)
  | .sourceMap map => (.ok none,m.setInputSourceMap map)
  | .freeze => (m.freeze.1.map fun _ => none, m.freeze.2)

def after (m : CoverageMap) (calls : List Call) : CoverageMap :=
  calls.foldl (fun m c => (m.perform c).2) m

@[simp] theorem after_nil (m : CoverageMap) : m.after [] = m := rfl

@[simp] theorem after_cons (m : CoverageMap) (c : Call) (calls : List Call) :
    m.after (c :: calls) = (m.perform c).2.after calls := rfl

theorem after_append (m : CoverageMap) (calls later : List Call) :
    m.after (calls ++ later) = (m.after calls).after later :=
  List.foldl_append

variable {m m' m'' : CoverageMap} {c : Call} {answer : Except InstrumentError (Option Nat)}

/-- What a call can do. -/
inductive Effect (m : CoverageMap) :
    Call → Except InstrumentError (Option Nat) → CoverageMap → Prop where
  | closed {c : Call} (hc : c.registers = true) (hf : m.frozen = true) :
      Effect m c (.error (.frozen m.data.path)) m
  | unknown {b : Nat} {loc : Location} (hf : m.frozen = false) (hb : m.branchCount ≤ b) :
      Effect m (.path b loc) (.error (.unknownBranch b)) m
  | statement {loc : Location} (hf : m.frozen = false) :
      Effect m (.statement loc) (.ok (some m.statementCount))
        { m with data := { m.data with
            statementMap := m.data.statementMap ++ [loc], s := m.data.s ++ [0] } }
  | function {name : Option String} {decl loc : Location} (hf : m.frozen = false) :
      Effect m (.function name decl loc) (.ok (some m.functionCount))
        { m with data := { m.data with
            fnMap := m.data.fnMap ++ [⟨functionName name m.functionCount,decl,loc,loc.start.line⟩]
            f := m.data.f ++ [0] } }
  | branch {kind : BranchKind} {loc : Location} (hf : m.frozen = false) :
      Effect m (.branch kind loc) (.ok (some m.branchCount))
        { m with data := { m.data with
            branchMap := m.data.branchMap ++ [⟨loc,kind,[],loc.start.line⟩]
            b := m.data.b ++ [[]] } }
  | path {b : Nat} {loc : Location} (hf : m.frozen = false) (hb : b < m.branchCount) :
      Effect m (.path b loc) (.ok (some (m.data.b.getD b []).length))
        { m with data := { m.data with
            branchMap := m.data.branchMap.modify b fun r => { r with locations := r.locations ++ [loc] }
            b := m.data.b.modify b (· ++ [0]) } }
  | sourceMap (map : Json) : Effect m (.sourceMap map) (.ok none) (m.setInputSourceMap map)
  | freeze : Effect m .freeze (.ok none) m.freeze.2

theorem ifOpen_of_frozen {α : Type} (h : m.frozen = true)
    (result : Except InstrumentError α × CoverageMap) :
    m.ifOpen result = (.error (.frozen m.data.path),m) :=
  if_pos h

theorem ifOpen_of_open {α : Type} (h : m.frozen = false)
    (result : Except InstrumentError α × CoverageMap) : m.ifOpen result = result :=
  if_neg (Bool.eq_false_iff.mp h)

/-- Freezing does not fail, as whatever a map holds can be written. -/
theorem effect_freeze (m : CoverageMap) :
    Effect m .freeze (m.perform .freeze).1 (m.perform .freeze).2 := by
  rw [perform,fst_freeze]
  exact .freeze

theorem effect_perform (m : CoverageMap) (c : Call) : Effect m c (m.perform c).1 (m.perform c).2 := by
  cases hf : m.frozen with
  | true =>
    cases c with
    | sourceMap map => exact .sourceMap map
    | freeze => exact effect_freeze m
    | _ =>
      simp only [perform,registered,newStatement,newFunction,newBranch,addBranchPath,
        ifOpen_of_frozen hf]
      exact .closed rfl hf
  | false =>
    cases c with
    | statement loc =>
      rw [perform,registered,newStatement,ifOpen_of_open hf]
      exact .statement hf
    | function name decl loc =>
      rw [perform,registered,newFunction,ifOpen_of_open hf]
      exact .function hf
    | branch kind loc =>
      rw [perform,registered,newBranch,ifOpen_of_open hf]
      exact .branch hf
    | path b loc =>
      rw [perform,registered,addBranchPath,ifOpen_of_open hf]
      split
      · rename_i hb
        exact .path hf hb
      · rename_i hb
        exact .unknown hf (Nat.le_of_not_lt hb)
    | sourceMap map => exact .sourceMap map
    | freeze => exact effect_freeze m

theorem Effect.eq_of_error {e : InstrumentError} (he : Effect m c (.error e) m') : m' = m := by
  cases he with
  | closed | unknown => rfl

/-- The counts stand beside the records, the counts of a branch beside its paths, and all are zero; a
closed map has a fingerprint and an open one has none. -/
structure Sound (m : CoverageMap) : Prop where
  s : m.data.s = List.replicate m.data.statementMap.length 0
  f : m.data.f = List.replicate m.data.fnMap.length 0
  b : m.data.b = m.data.branchMap.map fun r => List.replicate r.locations.length 0
  hash : m.hash?.isSome = m.frozen

theorem sound_new (path : String) : (new path).Sound := ⟨rfl,rfl,rfl,rfl⟩

theorem Sound.getElem?_b (h : m.Sound) (i : Nat) :
    m.data.b[i]? = (m.data.branchMap[i]?).map fun r => List.replicate r.locations.length 0 := by
  rw [h.b,List.getElem?_map]

theorem Sound.effect (h : m.Sound) (he : Effect m c answer m') : m'.Sound := by
  cases he with
  | closed | unknown => exact h
  | sourceMap map => exact ⟨h.s,h.f,h.b,h.hash⟩
  | freeze =>
    rw [freeze_eq]
    dsimp only
    split
    · exact h
    · exact ⟨h.s,h.f,h.b,rfl⟩
  | statement => exact ⟨by simp [h.s,List.replicate_succ'],h.f,h.b,h.hash⟩
  | function => exact ⟨h.s,by simp [h.f,List.replicate_succ'],h.b,h.hash⟩
  | branch => exact ⟨h.s,h.f,by simp [h.b],h.hash⟩
  | @path b loc _ hb =>
    refine ⟨h.s,h.f,List.ext_getElem? fun i => ?_,h.hash⟩
    simp only [List.getElem?_map,List.getElem?_modify,h.getElem?_b]
    by_cases hi : b = i
    · cases m.data.branchMap[i]? <;> simp [hi,List.replicate_succ']
    · cases m.data.branchMap[i]? <;> simp [hi]

theorem Sound.after (h : m.Sound) (calls : List Call) : (m.after calls).Sound := by
  induction calls generalizing m with
  | nil => exact h
  | cons c calls ih => exact ih (h.effect (effect_perform m c))

/-- The path that a call adds to a branch. -/
def Call.pathsOf (i : Nat) : Call → List Location
  | path b loc => if b = i then [loc] else []
  | _ => []

/-- The records of the first map stand in the second under the same indices and as they were, but for
the path that the call adds behind those of a branch. -/
structure Call.Spares (c : Call) (m m' : CoverageMap) : Prop where
  path : m'.data.path = m.data.path
  statements : m.data.statementMap <+: m'.data.statementMap
  functions : m.data.fnMap <+: m'.data.fnMap
  branches : ∀ (i : Nat) (r : BranchRecord), m.data.branchMap[i]? = some r →
    m'.data.branchMap[i]? = some { r with locations := r.locations ++ c.pathsOf i }

theorem getElem?_mono {α : Type} {l l' : List α} {i : Nat} {a : α} (h : l <+: l')
    (ha : l[i]? = some a) : l'[i]? = some a := by
  obtain ⟨hi,rfl⟩ := List.getElem?_eq_some_iff.mp ha
  exact List.prefix_iff_getElem?.mp h i hi

theorem Call.Spares.of_append (hp : m'.data.path = m.data.path)
    (hs : m.data.statementMap <+: m'.data.statementMap) (hf : m.data.fnMap <+: m'.data.fnMap)
    (hb : m.data.branchMap <+: m'.data.branchMap) (hc : ∀ i < m.branchCount, c.pathsOf i = []) :
    c.Spares m m' := by
  refine ⟨hp,hs,hf,fun i r hr => ?_⟩
  obtain ⟨hi,-⟩ := List.getElem?_eq_some_iff.mp hr
  rw [hc i hi,List.append_nil]
  exact getElem?_mono hb hr

theorem Effect.spares (he : Effect m c answer m') (ha : ∀ e, answer ≠ .error e) : c.Spares m m' := by
  cases he with
  | closed | unknown => exact absurd rfl (ha _)
  | sourceMap map =>
    exact .of_append rfl List.prefix_rfl List.prefix_rfl List.prefix_rfl fun _ _ => rfl
  | freeze =>
    rw [freeze_eq]
    dsimp only
    split <;>
      exact .of_append rfl List.prefix_rfl List.prefix_rfl List.prefix_rfl fun _ _ => rfl
  | statement =>
    exact .of_append rfl (List.prefix_append _ _) List.prefix_rfl List.prefix_rfl fun _ _ => rfl
  | function =>
    exact .of_append rfl List.prefix_rfl (List.prefix_append _ _) List.prefix_rfl fun _ _ => rfl
  | branch =>
    exact .of_append rfl List.prefix_rfl List.prefix_rfl (List.prefix_append _ _) fun _ _ => rfl
  | @path b loc _ hb =>
    refine ⟨rfl,List.prefix_refl _,List.prefix_refl _,fun i r hr => ?_⟩
    by_cases hi : b = i
    · simp [Call.pathsOf,hi,hr]
    · simp [Call.pathsOf,hi,hr]

/-- The records of the first map stand in the second under the same indices; a branch may have more
paths behind those it has. -/
structure Keeps (m m' : CoverageMap) : Prop where
  statements : m.data.statementMap <+: m'.data.statementMap
  functions : m.data.fnMap <+: m'.data.fnMap
  branches : ∀ (i : Nat) (r : BranchRecord), m.data.branchMap[i]? = some r →
    ∃ paths, m'.data.branchMap[i]? = some { r with locations := r.locations ++ paths }

theorem Keeps.refl (m : CoverageMap) : m.Keeps m :=
  ⟨List.prefix_refl _,List.prefix_refl _,fun i r hr => ⟨[],by rw [hr,List.append_nil]⟩⟩

theorem Keeps.trans (h₁ : m.Keeps m') (h₂ : m'.Keeps m'') : m.Keeps m'' := by
  refine ⟨h₁.statements.trans h₂.statements,h₁.functions.trans h₂.functions,fun i r hr => ?_⟩
  obtain ⟨paths,hp⟩ := h₁.branches i r hr
  obtain ⟨paths',hp'⟩ := h₂.branches i _ hp
  exact ⟨paths ++ paths',by rw [hp',List.append_assoc]⟩

theorem Effect.keeps (he : Effect m c answer m') : m.Keeps m' := by
  cases answer with
  | error e =>
    rw [he.eq_of_error]
    exact .refl m
  | ok o =>
    have hs := he.spares nofun
    exact ⟨hs.statements,hs.functions,fun i r hr => ⟨_,hs.branches i r hr⟩⟩

theorem keeps_after (m : CoverageMap) (calls : List Call) : m.Keeps (m.after calls) := by
  induction calls generalizing m with
  | nil => exact .refl m
  | cons c calls ih => exact (effect_perform m c).keeps.trans (ih _)

/-- The length of the table, or of the list of paths, that a call adds to. -/
def Call.place? (m : CoverageMap) : Call → Option Nat
  | statement _ => some m.data.statementMap.length
  | function _ _ _ => some m.data.fnMap.length
  | branch _ _ => some m.data.branchMap.length
  | path b _ => (m.data.branchMap[b]?).map fun r => r.locations.length
  | sourceMap _ | freeze => none

/-- What a call asks for stands under an index. A function without a name, or with an empty one, has a
name made from the index. -/
def Call.Recorded (m : CoverageMap) (i : Nat) : Call → Prop
  | statement loc => m.data.statementMap[i]? = some loc
  | function name decl loc => ∃ r, m.data.fnMap[i]? = some r ∧
      r.decl = decl ∧ r.loc = loc ∧ r.line = loc.start.line ∧
      (name = none ∨ name = some "" → r.name = "(anonymous_" ++ toString i ++ ")") ∧
      ∀ own, name = some own → own ≠ "" → r.name = own
  | branch kind loc => ∃ r, m.data.branchMap[i]? = some r ∧
      r.kind = kind ∧ r.loc = loc ∧ r.line = loc.start.line
  | path b loc => ∃ r, m.data.branchMap[b]? = some r ∧ r.locations[i]? = some loc
  | sourceMap _ | freeze => True

theorem Call.Recorded.mono {i : Nat} (h : c.Recorded m i) (hk : m.Keeps m') : c.Recorded m' i := by
  cases c with
  | statement loc => exact getElem?_mono hk.statements h
  | function name decl loc =>
    obtain ⟨r,hr,h⟩ := h
    exact ⟨r,getElem?_mono hk.functions hr,h⟩
  | branch kind loc =>
    obtain ⟨r,hr,h⟩ := h
    obtain ⟨paths,hp⟩ := hk.branches i r hr
    exact ⟨_,hp,h⟩
  | path b loc =>
    obtain ⟨r,hr,hl⟩ := h
    obtain ⟨paths,hp⟩ := hk.branches b r hr
    exact ⟨_,hp,getElem?_mono (List.prefix_append _ _) hl⟩
  | sourceMap | freeze => trivial

theorem functionName_of_unnamed {name : Option String} (h : name = none ∨ name = some "") (i : Nat) :
    functionName name i = "(anonymous_" ++ toString i ++ ")" := by
  rcases h with rfl | rfl <;> rfl

theorem functionName_of_ne {own : String} (h : own ≠ "") (i : Nat) :
    functionName (some own) i = own := by
  have hn : own.isEmpty = false := by simpa using h
  simp [functionName,hn]

/-- A registration that succeeds answers with the length its table had, and puts its record there. -/
theorem Sound.registered {i : Nat} (h : m.Sound) (he : Effect m c (.ok (some i)) m') :
    c.place? m = some i ∧ c.Recorded m' i := by
  cases he with
  | statement => exact ⟨rfl,by simp [Call.Recorded,statementCount]⟩
  | function =>
    refine ⟨rfl,_,List.getElem?_concat_length,rfl,rfl,rfl,fun hn => functionName_of_unnamed hn _,?_⟩
    rintro own rfl hn
    exact functionName_of_ne hn _
  | branch => exact ⟨rfl,_,List.getElem?_concat_length,rfl,rfl,rfl⟩
  | @path b loc _ hb =>
    obtain ⟨r,hr⟩ : ∃ r, m.data.branchMap[b]? = some r := ⟨_,List.getElem?_eq_getElem hb⟩
    have hl : (m.data.b.getD b []).length = r.locations.length := by
      rw [List.getD_eq_getElem?_getD,h.getElem?_b,hr]
      simp
    have hm : (m.data.branchMap.modify b fun r => { r with locations := r.locations ++ [loc] })[b]? =
        some ({ r with locations := r.locations ++ [loc] } : BranchRecord) := by
      simp [hr]
    rw [hl]
    exact ⟨by simp [Call.place?,hr],_,hm,List.getElem?_concat_length⟩

/-- A map is closed by freezing it, and never opened again. -/
theorem Effect.frozen_iff (he : Effect m c answer m') :
    m'.frozen = true ↔ m.frozen = true ∨ .freeze = c := by
  cases he with
  | freeze => simp
  | closed hc hf => simp [hf]
  | _ => simp [setInputSourceMap]

theorem frozen_after_iff (m : CoverageMap) (calls : List Call) :
    (m.after calls).frozen = true ↔ m.frozen = true ∨ .freeze ∈ calls := by
  induction calls generalizing m with
  | nil => simp
  | cons c calls ih => rw [after_cons,ih,(effect_perform m c).frozen_iff,List.mem_cons,or_assoc]

theorem Effect.hash?_eq (he : Effect m c answer m') (h : m.frozen = true) : m'.hash? = m.hash? := by
  cases he with
  | freeze => rw [freeze_eq,if_pos h]
  | _ => rfl

theorem hash?_after (h : m.frozen = true) (calls : List Call) : (m.after calls).hash? = m.hash? := by
  induction calls generalizing m with
  | nil => rfl
  | cons c calls ih =>
    have he := effect_perform m c
    exact (ih (he.frozen_iff.mpr (Or.inl h))).trans (he.hash?_eq h)

/-- A registration on a closed map is refused. -/
theorem Effect.refused (he : Effect m c answer m') (h : m.frozen = true) (hc : c.registers = true) :
    answer = .error (.frozen m.data.path) := by
  cases he with
  | closed => rfl
  | unknown hf | statement hf | function hf | branch hf | path hf => rw [hf] at h; cases h
  | sourceMap | freeze => cases hc

/-- A path is added just if the map is open and has the branch. -/
theorem Effect.path_iff {b : Nat} {loc : Location} (he : Effect m (.path b loc) answer m') :
    (∃ i, answer = .ok (some i)) ↔ m.frozen = false ∧ b < m.branchCount := by
  cases he with
  | closed _ hf => simp [hf]
  | unknown _ hb => simp [Nat.not_lt.mpr hb]
  | path hf hb => simp [hf,hb]

/-- Whatever calls a new map has seen, its counts stand beside its records and are zero; a
registration that succeeds answers with the length of its table and spares all other records, and its
record stays where it was put; a path is added just if the map is open and has the branch; a call that
fails changes nothing; and a map that was frozen takes no records and keeps its fingerprint. -/
theorem map_history (path : String) (calls : List Call) :
    ((new path).after calls).Sound ∧
    (((new path).after calls).frozen = true ↔ .freeze ∈ calls) ∧
    (∀ c i, (((new path).after calls).perform c).1 = .ok (some i) →
      c.place? ((new path).after calls) = some i ∧
      c.Spares ((new path).after calls) ((new path).after (calls ++ [c])) ∧
      ∀ later, c.Recorded ((new path).after (calls ++ c :: later)) i) ∧
    (∀ b loc, (∃ i, (((new path).after calls).perform (.path b loc)).1 = .ok (some i)) ↔
      ((new path).after calls).frozen = false ∧ b < ((new path).after calls).branchCount) ∧
    (∀ c e, (((new path).after calls).perform c).1 = .error e →
      (new path).after (calls ++ [c]) = (new path).after calls) ∧
    (.freeze ∈ calls → ∃ hash, ∀ later,
      ((new path).after (calls ++ later)).hash? = some hash ∧
      ∀ c, c.registers = true → ∃ e, (((new path).after (calls ++ later)).perform c).1 = .error e) := by
  have hs : ((new path).after calls).Sound := (sound_new path).after calls
  have hf : ((new path).after calls).frozen = true ↔ .freeze ∈ calls := by
    simp [frozen_after_iff,new]
  simp only [after_append,after_cons,after_nil]
  generalize (new path).after calls = m at hs hf ⊢
  refine ⟨hs,hf,fun c i h => ?_,fun b loc => (effect_perform m _).path_iff,fun c e h => ?_,fun h => ?_⟩
  · have he := effect_perform m c
    rw [h] at he
    obtain ⟨hp,hr⟩ := hs.registered he
    exact ⟨hp,he.spares nofun,fun later => hr.mono (keeps_after _ later)⟩
  · have he := effect_perform m c
    rw [h] at he
    exact he.eq_of_error
  · have hm : m.frozen = true := hf.mpr h
    have hh : m.hash?.isSome = true := hs.hash.trans hm
    obtain ⟨hash,hash_eq⟩ := Option.isSome_iff_exists.mp hh
    refine ⟨hash,fun later => ⟨(hash?_after hm later).trans hash_eq,fun c hc => ?_⟩⟩
    have hl : (m.after later).frozen = true := (frozen_after_iff m later).mpr (Or.inl hm)
    exact ⟨_,(effect_perform (m.after later) c).refused hl hc⟩

end CoverageMap
end CoverageCounters
