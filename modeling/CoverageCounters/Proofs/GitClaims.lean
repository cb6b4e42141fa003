import Mathlib.Logic.Function.Basic
import CoverageCounters.Proofs.Instrumented

/-!
Passes that share a batch. A pass works on its own until it claims the metadata of the batch, which is
one step, and works on its own again behind that. Whatever the order in which the steps of the passes
follow each other, the first claim is answered and no other, and only passes that instrument their
program claim.
-/

namespace CoverageCounters

/-- A pass that is asked for. -/
structure Job where
  program : Program
  file : SourceFile
  options : Options

/-- Where a pass stands between two of its steps. -/
inductive Stage where
  | waiting
  | claiming (walked : Program) (found : Outcome)
  | answered (walked : Program) (found : Outcome) (git : Option GitInfo)
  | done (program : Program) (outcome : Except InstrumentError Outcome)
    (notified : List (String × FileCoverage))

namespace Stage

def isClaiming : Stage → Bool
  | claiming _ _ => true
  | _ => false

def isDone : Stage → Bool
  | done _ _ _ => true
  | _ => false

end Stage

namespace Job

/-- A pass with a batch of its own. -/
def alone (j : Job) (git : Option GitInfo) : PassResult :=
  instrument j.program j.file j.options (.new git)

def Instruments (j : Job) : Prop := ∃ o, (j.alone none).outcome = .ok o ∧ o.status = .instrumented

/-- A pass up to its claim. -/
def start (j : Job) : Stage :=
  let untouched (status : Status) : Outcome :=
    ⟨status,(startMap j.file.path j.options).freeze.2.data,none⟩
  if j.file.directives.fileIgnored then
    .done j.program (.ok (untouched .ignored)) (notify j.options (untouched .ignored))
  else if j.program.binds (identifierOf j.file.path) then
    .done j.program (.ok (untouched .alreadyInstrumented)) []
  else
    let (walked,finish) :=
      j.program.walk (j.file.context j.options) (startMap j.file.path j.options)
    match finish.failure with
    | some e => .done walked (.error e) []
    | none =>
      .claiming walked ⟨.instrumented,finish.coverage.freeze.2.data,
        finalUrl? j.file.directives j.program.span finish.url⟩

def complete (j : Job) (walked : Program) (found : Outcome) (git : Option GitInfo) : Program :=
  walked.prepend (prelude j.file.path j.options found.coverage git)

/-- The next step of a pass. Only the claim looks at the batch. -/
def step (j : Job) (batch : Batch) : Stage → Stage × Batch
  | .waiting => (j.start,batch)
  | .claiming walked found => (.answered walked found batch.claim.1,batch.claim.2)
  | .answered walked found git =>
    (.done (j.complete walked found git) (.ok found) (notify j.options found),batch)
  | .done program outcome notified => (.done program outcome notified,batch)

def steps (j : Job) (batch : Batch) : Stage × Batch :=
  let (walked,batch) := j.step batch .waiting
  let (claimed,batch) := j.step batch walked
  j.step batch claimed

variable {j : Job}

/-- A pass is over without a claim, or it claims, and then it instruments its program. -/
theorem start_cases (j : Job) :
    (∃ program outcome notified, j.start = .done program outcome notified ∧
      (∀ o, outcome = .ok o → o.status ≠ .instrumented) ∧
      ∀ batch, instrument j.program j.file j.options batch = ⟨program,batch,outcome,notified⟩) ∨
    ∃ walked found, j.start = .claiming walked found ∧ found.status = .instrumented ∧
      ∀ batch, instrument j.program j.file j.options batch =
        ⟨j.complete walked found batch.claim.1,batch.claim.2,.ok found,
          notify j.options found⟩ := by
  unfold start instrument
  split
  · exact Or.inl ⟨_,_,_,rfl,fun o h => by cases h; exact Status.noConfusion,
      fun batch => returnIgnored_eq _ _ _ batch⟩
  · split
    · exact Or.inl ⟨_,_,_,rfl,fun o h => by cases h; exact Status.noConfusion,
        fun batch => returnDeclared_eq _ _ _ batch⟩
    · dsimp only
      cases hf : (j.program.walk (j.file.context j.options)
          (startMap j.file.path j.options)).2.failure with
      | some e => exact Or.inl ⟨_,_,_,rfl,nofun,fun _ => instrumentOpen_of_failure hf⟩
      | none => exact Or.inr ⟨_,_,rfl,rfl,fun _ => instrumentOpen_of_walked hf⟩

/-- The steps of a pass, taken one after the other, are the pass. -/
theorem steps_eq (j : Job) (batch : Batch) :
    j.steps batch =
      (.done (instrument j.program j.file j.options batch).program
        (instrument j.program j.file j.options batch).outcome
        (instrument j.program j.file j.options batch).notified,
        (instrument j.program j.file j.options batch).batch) := by
  rcases j.start_cases with ⟨program,outcome,notified,hs,-,hi⟩ | ⟨walked,found,hs,-,hi⟩
  · rw [hi]
    simp only [steps,step,hs]
  · rw [hi]
    simp only [steps,step,hs]

theorem instruments_of_claiming {walked : Program} {found : Outcome}
    (h : j.start = .claiming walked found) : j.Instruments := by
  rcases j.start_cases with ⟨program,outcome,notified,hs,-,-⟩ | ⟨walked',found',hs,hf,hi⟩
  · rw [hs] at h
    cases h
  · exact ⟨found',by rw [alone,hi],hf⟩

theorem exists_claiming (h : j.Instruments) :
    ∃ walked found, j.start = .claiming walked found := by
  obtain ⟨o,ho,hst⟩ := h
  rcases j.start_cases with ⟨program,outcome,notified,hs,hn,hi⟩ | ⟨walked,found,hs,-,-⟩
  · rw [alone,hi] at ho
    exact absurd hst (hn o ho)
  · exact ⟨walked,found,hs⟩

/-- A pass that is over without a claim ends as it does alone. -/
theorem alone_of_done {program : Program} {outcome : Except InstrumentError Outcome}
    {notified : List (String × FileCoverage)} (h : j.start = .done program outcome notified)
    (git : Option GitInfo) : (j.alone git).program = program ∧ (j.alone git).outcome = outcome ∧
      (j.alone git).notified = notified := by
  rcases j.start_cases with ⟨program',outcome',notified',hs,-,hi⟩ | ⟨walked,found,hs,-,-⟩
  · rw [hs] at h
    cases h
    rw [alone,hi]
    exact ⟨rfl,rfl,rfl⟩
  · rw [hs] at h
    cases h

/-- A pass that claims ends as it does alone with what it is given. -/
theorem alone_of_claiming {walked : Program} {found : Outcome}
    (h : j.start = .claiming walked found) (git : Option GitInfo) :
    (j.alone git).program = j.complete walked found git ∧ (j.alone git).outcome = .ok found ∧
      (j.alone git).notified = notify j.options found := by
  rcases j.start_cases with ⟨program,outcome,notified,hs,-,-⟩ | ⟨walked',found',hs,-,hi⟩
  · rw [hs] at h
    cases h
  · rw [hs] at h
    cases h
    rw [alone,hi]
    have hc : (Batch.new git).claim.1 = git := by cases git <;> rfl
    rw [hc]
    exact ⟨rfl,rfl,rfl⟩

theorem exists_body_alone (h : j.Instruments) (g : GitInfo) :
    ∃ front back, (j.alone none).program.body = front ++ back ∧
      (j.alone (some g)).program.body = front ++ Bootstrap.git g :: back := by
  obtain ⟨walked,found,hs⟩ := exists_claiming h
  refine ⟨walked.body.take (prologueLength walked.body) ++
    prelude j.file.path j.options found.coverage none,
    walked.body.drop (prologueLength walked.body),?_,?_⟩
  · rw [(alone_of_claiming hs none).1]
    rfl
  · rw [(alone_of_claiming hs (some g)).1]
    simp [complete,Program.prepend,prelude]

/-- The stages that a pass can come to, with or without a claim that is answered in the given way. -/
inductive Reaches (j : Job) (claimed : Prop) (git : Option GitInfo) : Stage → Prop where
  | waiting (hc : ¬claimed) : Reaches j claimed git .waiting
  | started {stage : Stage} (hs : j.start = stage) (hc : ¬claimed) : Reaches j claimed git stage
  | answered {walked : Program} {found : Outcome} (hs : j.start = .claiming walked found)
      (hc : claimed) : Reaches j claimed git (.answered walked found git)
  | done {walked : Program} {found : Outcome} (hs : j.start = .claiming walked found)
      (hc : claimed) :
      Reaches j claimed git (.done (j.complete walked found git) (.ok found) (notify j.options found))

variable {claimed : Prop} {git : Option GitInfo} {stage : Stage}

theorem Reaches.instruments (h : j.Reaches claimed git stage) (hc : claimed) : j.Instruments := by
  cases h with
  | waiting hn => exact absurd hc hn
  | started _ hn => exact absurd hc hn
  | answered hs _ => exact instruments_of_claiming hs
  | done hs _ => exact instruments_of_claiming hs

theorem Reaches.eq_alone {program : Program} {outcome : Except InstrumentError Outcome}
    {notified : List (String × FileCoverage)}
    (h : j.Reaches claimed git (.done program outcome notified)) :
    outcome = (j.alone none).outcome ∧ notified = (j.alone none).notified ∧
      program = (j.alone git).program := by
  cases h with
  | started hs _ =>
    obtain ⟨-,ho,hn⟩ := alone_of_done hs none
    exact ⟨ho.symm,hn.symm,(alone_of_done hs git).1.symm⟩
  | done hs _ =>
    obtain ⟨-,ho,hn⟩ := alone_of_claiming hs none
    exact ⟨ho.symm,hn.symm,(alone_of_claiming hs git).1.symm⟩

/-- A pass that instruments is over only behind its claim. -/
theorem Reaches.claimed_of_isDone (h : j.Reaches claimed git stage) (hd : stage.isDone = true)
    (hi : j.Instruments) : claimed := by
  cases h with
  | waiting _ => cases hd
  | started hs _ =>
    obtain ⟨walked,found,hw⟩ := exists_claiming hi
    rw [← hs,hw] at hd
    cases hd
  | answered _ hc => exact hc
  | done _ hc => exact hc

theorem Reaches.of_claiming {walked : Program} {found : Outcome}
    (h : j.Reaches claimed git (.claiming walked found)) :
    j.start = .claiming walked found ∧ ¬claimed := by
  cases h with
  | started hs hc => exact ⟨hs,hc⟩

theorem Reaches.step (h : j.Reaches claimed git stage) (hn : stage.isClaiming = false)
    (batch : Batch) : (j.step batch stage).2 = batch ∧ j.Reaches claimed git (j.step batch stage).1 := by
  cases h with
  | waiting hc => exact ⟨rfl,.started rfl hc⟩
  | started hs hc =>
    rcases j.start_cases with ⟨program,outcome,notified,hd,-,-⟩ | ⟨walked,found,hw,-,-⟩
    · rw [← hs,hd]
      exact ⟨rfl,.started hd hc⟩
    · rw [← hs,hw] at hn
      cases hn
  | answered hs hc => exact ⟨rfl,.done hs hc⟩
  | done hs hc => exact ⟨rfl,.done hs hc⟩

end Job

/-- The passes of a batch on their way, with those that have claimed in the order of their claims. -/
structure BatchRun (n : Nat) where
  batch : Batch
  stages : Fin n → Stage
  claims : List (Fin n)

namespace BatchRun

variable {n : Nat} {jobs : Fin n → Job} {info : Option GitInfo} {s : BatchRun n}

def start (info : Option GitInfo) : BatchRun n := ⟨.new info,fun _ => .waiting,[]⟩

def step (jobs : Fin n → Job) (s : BatchRun n) (i : Fin n) : BatchRun n :=
  let next := (jobs i).step s.batch (s.stages i)
  { batch := next.2
    stages := Function.update s.stages i next.1
    claims := if (s.stages i).isClaiming then s.claims ++ [i] else s.claims }

def run (jobs : Fin n → Job) (info : Option GitInfo) (schedule : List (Fin n)) : BatchRun n :=
  schedule.foldl (step jobs) (start info)

/-- What a pass is given: the metadata if it was the first to claim. -/
def answer (info : Option GitInfo) (claims : List (Fin n)) (i : Fin n) : Option GitInfo :=
  if claims.head? = some i then info else none

theorem answer_append_of_ne {i k : Fin n} (claims : List (Fin n)) (h : k ≠ i) :
    answer info (claims ++ [i]) k = answer info claims k := by
  cases claims with
  | nil => simp [answer,h.symm]
  | cons c rest => rfl

theorem answer_append_self {i : Fin n} {claims : List (Fin n)} (h : i ∉ claims) :
    answer info (claims ++ [i]) i = if claims.isEmpty then info else none := by
  cases claims with
  | nil => simp [answer]
  | cons c rest =>
    have hc : c ≠ i := fun he => h (he ▸ List.mem_cons_self)
    simp [answer,hc]

/-- The batch is claimed once there are claims, and each pass stands where its own steps lead. -/
structure Proper (jobs : Fin n → Job) (info : Option GitInfo) (s : BatchRun n) : Prop where
  gitInfo : s.batch.gitInfo = info
  claimed : s.batch.claimed = (info.isSome && !s.claims.isEmpty)
  nodup : s.claims.Nodup
  reaches : ∀ i, (jobs i).Reaches (i ∈ s.claims) (answer info s.claims i) (s.stages i)

theorem proper_start : Proper jobs info (start info) :=
  ⟨rfl,by simp [start,Batch.new],List.nodup_nil,fun _ => .waiting List.not_mem_nil⟩

/-- The first claim of a batch is answered, and takes the metadata; later ones get nothing. -/
theorem Proper.claim (h : Proper jobs info s) :
    s.batch.claim =
      (if s.claims.isEmpty then info else none,⟨info,info.isSome⟩) := by
  have hb : s.batch = ⟨info,info.isSome && !s.claims.isEmpty⟩ := by
    rw [← h.claimed,← h.gitInfo]
  rw [hb]
  cases info <;> cases s.claims <;> rfl

theorem Proper.step (h : Proper jobs info s) (i : Fin n) : Proper jobs info (s.step jobs i) := by
  have hi := h.reaches i
  cases hcl : (s.stages i).isClaiming with
  | false =>
    obtain ⟨hb,hr⟩ := hi.step hcl s.batch
    have hs : s.step jobs i =
        ⟨s.batch,Function.update s.stages i ((jobs i).step s.batch (s.stages i)).1,s.claims⟩ := by
      rw [BatchRun.step,hcl]
      simp [hb]
    rw [hs]
    refine ⟨h.gitInfo,h.claimed,h.nodup,fun k => ?_⟩
    by_cases hk : k = i
    · subst hk
      simpa using hr
    · simpa [hk] using h.reaches k
  | true =>
    obtain ⟨walked,found,hst⟩ : ∃ walked found, s.stages i = .claiming walked found := by
      cases hst : s.stages i with
      | claiming walked found => exact ⟨walked,found,rfl⟩
      | _ => rw [hst] at hcl; cases hcl
    rw [hst] at hi
    obtain ⟨hstart,hn⟩ := hi.of_claiming
    have hs : s.step jobs i =
        ⟨⟨info,info.isSome⟩,Function.update s.stages i
          (.answered walked found (answer info (s.claims ++ [i]) i)),s.claims ++ [i]⟩ := by
      rw [BatchRun.step,hst,answer_append_self hn]
      simp [Job.step,Stage.isClaiming,h.claim]
    rw [hs]
    refine ⟨rfl,by simp,?_,fun k => ?_⟩
    · refine List.nodup_append.mpr ⟨h.nodup,List.pairwise_singleton _ _,fun a ha b hb he => ?_⟩
      exact hn (List.mem_singleton.mp hb ▸ he ▸ ha)
    · by_cases hk : k = i
      · subst hk
        have hm : k ∈ s.claims ++ [k] := List.mem_append_right _ (List.mem_singleton_self k)
        simp only [Function.update_self]
        exact .answered hstart hm
      · simpa [hk,answer_append_of_ne] using h.reaches k

theorem proper_run (jobs : Fin n → Job) (info : Option GitInfo) (schedule : List (Fin n)) :
    Proper jobs info (run jobs info schedule) := by
  unfold run
  have h : ∀ s, Proper jobs info s → Proper jobs info (schedule.foldl (BatchRun.step jobs) s) := by
    induction schedule with
    | nil => exact fun s hs => hs
    | cons i rest ih => exact fun s hs => ih _ (hs.step i)
  exact h _ proper_start

/-- The program that a pass has ended with is the one it makes alone and the metadata beside it. -/
def Publishes (jobs : Fin n → Job) (s : BatchRun n) (g : GitInfo) (i : Fin n) : Prop :=
  ∃ program outcome notified front back, s.stages i = .done program outcome notified ∧
    ((jobs i).alone none).program.body = front ++ back ∧
    program.body = front ++ Bootstrap.git g :: back

theorem Proper.publishes_iff {g : GitInfo} (h : Proper jobs (some g) s) {i : Fin n}
    (hd : (s.stages i).isDone = true) : Publishes jobs s g i ↔ s.claims.head? = some i := by
  have hr := h.reaches i
  constructor
  · rintro ⟨program,outcome,notified,front,back,hs,ha,hp⟩
    by_contra hne
    rw [hs,answer,if_neg hne] at hr
    -- the pass is given nothing, so its program is no longer than the one it makes alone
    have he := congrArg List.length (hr.eq_alone.2.2 ▸ hp)
    rw [ha] at he
    simp at he
  · intro hh
    have hi : (jobs i).Instruments := hr.instruments (List.mem_of_mem_head? hh)
    obtain ⟨front,back,ha,hg⟩ := Job.exists_body_alone hi g
    cases hs : s.stages i with
    | done program outcome notified =>
      rw [hs,answer,if_pos hh] at hr
      exact ⟨program,outcome,notified,front,back,hs,ha,hr.eq_alone.2.2 ▸ hg⟩
    | _ => rw [hs] at hd; cases hd

/-- However the steps of the passes follow each other, each pass finds and reports what it does alone
without metadata, and its program is the one it makes alone with what its claim is given: the metadata for the
first claim, nothing for any other. Only passes that instrument claim, and once all are over each of
them has claimed; so the metadata of a batch is in the program of exactly one of them. -/
theorem git_claimed_once (jobs : Fin n → Job) (info : Option GitInfo) (schedule : List (Fin n)) :
    (∀ i batch, (jobs i).steps batch =
      (.done (instrument (jobs i).program (jobs i).file (jobs i).options batch).program
        (instrument (jobs i).program (jobs i).file (jobs i).options batch).outcome
        (instrument (jobs i).program (jobs i).file (jobs i).options batch).notified,
        (instrument (jobs i).program (jobs i).file (jobs i).options batch).batch)) ∧
    (∀ i program outcome notified,
      (run jobs info schedule).stages i = .done program outcome notified →
      outcome = ((jobs i).alone none).outcome ∧ notified = ((jobs i).alone none).notified ∧
      program = ((jobs i).alone (answer info (run jobs info schedule).claims i)).program) ∧
    (∀ i ∈ (run jobs info schedule).claims, (jobs i).Instruments) ∧
    ((run jobs info schedule).batch.claimed = true ↔
      info.isSome = true ∧ (run jobs info schedule).claims ≠ []) ∧
    ((∀ i, ((run jobs info schedule).stages i).isDone = true) →
      (∀ i, (jobs i).Instruments ↔ i ∈ (run jobs info schedule).claims) ∧
      ∀ g, info = some g →
        ((∃ i, (jobs i).Instruments) → ∃! i, Publishes jobs (run jobs info schedule) g i) ∧
        ∀ i, Publishes jobs (run jobs info schedule) g i ↔
          (run jobs info schedule).claims.head? = some i) := by
  have hp := proper_run jobs info schedule
  refine ⟨fun i => (jobs i).steps_eq,fun i program outcome notified hs => (hs ▸ hp.reaches i).eq_alone,
    fun i hi => (hp.reaches i).instruments hi,?_,fun hd => ⟨fun i => ?_,fun g hg => ?_⟩⟩
  · rw [hp.claimed]
    simp
  · exact ⟨(hp.reaches i).claimed_of_isDone (hd i),(hp.reaches i).instruments⟩
  · subst hg
    refine ⟨?_,fun i => hp.publishes_iff (hd i)⟩
    rintro ⟨i,hi⟩
    have hc := (hp.reaches i).claimed_of_isDone (hd i) hi
    obtain ⟨first,hf⟩ : ∃ first, (run jobs (some g) schedule).claims.head? = some first :=
      ⟨_,List.head?_eq_some_head (List.ne_nil_of_mem hc)⟩
    refine ⟨first,(hp.publishes_iff (hd first)).mpr hf,fun k hk => ?_⟩
    exact Option.some.inj (((hp.publishes_iff (hd k)).mp hk).symm.trans hf)

/-- Two passes over the same text under two paths. -/
def sampleJobs (i : Fin 2) : Job :=
  ⟨sampleProgram,{ sampleFile with path := if i = 0 then "a.js" else "b.js" },{}⟩

/-- The second pass starts later and claims first. -/
theorem git_claimed_once_sample :
    (∀ i, ((run sampleJobs (some {}) [0,1,1,0,0,1]).stages i).isDone = true) ∧
    (run sampleJobs (some {}) [0,1,1,0,0,1]).claims = [1,0] ∧
    (∃! i, Publishes sampleJobs (run sampleJobs (some {}) [0,1,1,0,0,1]) {} i) ∧
    Publishes sampleJobs (run sampleJobs (some {}) [0,1,1,0,0,1]) {} 1 := by
  have hd : ∀ i, ((run sampleJobs (some {}) [0,1,1,0,0,1]).stages i).isDone = true := by
    decide +kernel
  have hc : (run sampleJobs (some {}) [0,1,1,0,0,1]).claims = [1,0] := by decide +kernel
  obtain ⟨-,-,hi,-,hall⟩ := git_claimed_once sampleJobs (some {}) [0,1,1,0,0,1]
  obtain ⟨hone,hiff⟩ := (hall hd).2 {} rfl
  have hfirst : (sampleJobs 1).Instruments := hi 1 (by rw [hc]; exact List.mem_cons_self)
  exact ⟨hd,hc,hone ⟨1,hfirst⟩,(hiff 1).mpr (by rw [hc]; rfl)⟩

end BatchRun
end CoverageCounters
