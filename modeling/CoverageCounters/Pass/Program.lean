import CoverageCounters.Bootstrap
import CoverageCounters.Identifier
import CoverageCounters.Git
import CoverageCounters.Pass.Walk
import CoverageCounters.Path.Basic

/-!
A pass over one file. A file that a comment leaves out, or that declares its own identifier already,
is returned as it came. Otherwise the program is walked once, the coverage map is frozen, and the
prelude goes in behind the directives.
-/

namespace CoverageCounters

/-- What the passes of one batch share: repository metadata, which the first pass to ask for it gets. -/
structure Batch where
  gitInfo : Option GitInfo
  claimed : Bool
  deriving DecidableEq, Repr

namespace Batch

def new (gitInfo : Option GitInfo) : Batch := ⟨gitInfo,false⟩

/-- Ask for the metadata; only the first claim is answered. -/
def claim (b : Batch) : Option GitInfo × Batch :=
  match b.gitInfo with
  | none => (none,b)
  | some info => if b.claimed then (none,b) else (some info,{ b with claimed := true })

@[simp] theorem claim_of_claimed (info : Option GitInfo) :
    (Batch.mk info true).claim = (none,⟨info,true⟩) := by
  cases info <;> rfl

@[simp] theorem gitInfo_claim (b : Batch) : b.claim.2.gitInfo = b.gitInfo := by
  unfold claim
  split
  · rfl
  · split <;> rfl

end Batch

def defaultCoverageVariable : String := "__coverage__"

structure Options where
  coverageVariable : String := defaultCoverageVariable
  ignoredMethods : List String := []
  /-- A source map of the text, canonical; it is recorded with the coverage. -/
  inputSourceMap : Option Json := none
  /-- Whether someone listens for the coverage of files. -/
  listens : Bool := true

structure SourceFile where
  path : String
  text : SourceText
  comments : Comments

namespace SourceFile

def directives (file : SourceFile) : Directives := ⟨file.comments,file.text⟩

def context (file : SourceFile) (options : Options) : Context :=
  ⟨identifierOf file.path,file.directives,options.ignoredMethods⟩

end SourceFile

inductive Status where
  | instrumented
  | ignored
  | alreadyInstrumented
  deriving DecidableEq, Repr

namespace Status

def name : Status → String
  | instrumented => "instrumented"
  | ignored => "ignored"
  | alreadyInstrumented => "already_instrumented"

end Status

structure Outcome where
  status : Status
  coverage : FileCoverage
  url : Option String

/-- What a pass leaves behind: the program, the batch, the outcome or the first error, and what the
listener was called with. -/
structure PassResult where
  program : Program
  batch : Batch
  outcome : Except InstrumentError Outcome
  notified : List (String × FileCoverage)

namespace Node

def declares (name : String) : Node → Bool
  | bindings _ _ declarators =>
    declarators.any fun | .mk _ _ target _ => target.identifierName? = some name
  | function head key _ _ _ =>
    head.kind = .declaration && key.bind identifierName? = some name
  | classDeclaration _ _ className _ _ _ => className.identifierName? = some name
  | _ => false

/-- Whether an item of a program binds a name, bare or under an export. -/
def binds (name : String) : Node → Bool
  | exported _ declaration => declaration.declares name
  | n => n.declares name

end Node

namespace Program

def binds (p : Program) (name : String) : Bool := p.body.any (·.binds name)

def prologue (p : Program) : List Node := p.body.takeWhile Node.isDirective

def prologueMarks (p : Program) : Marks :=
  p.prologue.foldl (fun marks n => marks.markSkip ⟨.expressionStatement,n.span⟩) .empty

def walk (ctx : Context) (coverage : CoverageMap) (p : Program) : Program × Traversal :=
  let start := { Traversal.start coverage with marks := p.prologueMarks }
  let (items,finish) := (walkItems ctx p.body).run start
  ({ p with body := Walk.placed items },finish)

end Program

def startMap (path : String) (options : Options) : CoverageMap :=
  match options.inputSourceMap with
  | none => .new path
  | some map => (CoverageMap.new path).setInputSourceMap (Path.rebaseSourceMap path map)

def prelude (path : String) (options : Options) (coverage : FileCoverage) (git : Option GitInfo) :
    List Node :=
  Bootstrap.coverage
    { identifier := identifierOf path, path, hash := coverage.hash.getD "",
      coverageVariable := options.coverageVariable,
      data := coverage.taggedPayload coverageSchema } :: (git.map Bootstrap.git).toList

/-- The source map a file refers to: a reference at the program or behind it goes before those met
on the walk. -/
def finalUrl? (d : Directives) (program : Span) (walked : Option String) : Option String :=
  ((d.sourceMapUrl? program).or (d.trailerUrl? program.hi)).or walked

def notify (options : Options) (o : Outcome) : List (String × FileCoverage) :=
  if options.listens then [(o.coverage.path,o.coverage)] else []

/-- Walk a program that is to be instrumented, and put its prelude in. -/
def instrumentOpen (program : Program) (file : SourceFile) (options : Options) (batch : Batch) :
    PassResult :=
  let (walked,finish) := program.walk (file.context options) (startMap file.path options)
  match finish.failure with
  | some e => ⟨walked,batch,.error e,[]⟩
  | none =>
    match finish.coverage.freeze with
    | (.error e,_) => ⟨walked,batch,.error e,[]⟩
    | (.ok _,map) =>
      let (git,batch) := batch.claim
      let o : Outcome :=
        ⟨.instrumented,map.data,finalUrl? file.directives program.span finish.url⟩
      ⟨walked.prepend (prelude file.path options o.coverage git),batch,.ok o,notify options o⟩

def returnIgnored (program : Program) (file : SourceFile) (options : Options) (batch : Batch) :
    PassResult :=
  match (startMap file.path options).freeze with
  | (.error e,_) => ⟨program,batch,.error e,[]⟩
  | (.ok _,map) =>
    let o : Outcome := ⟨.ignored,map.data,none⟩
    ⟨program,batch,.ok o,notify options o⟩

/-- Return a program that declares its identifier as it came; the listener is not called. -/
def returnDeclared (program : Program) (file : SourceFile) (options : Options) (batch : Batch) :
    PassResult :=
  match (startMap file.path options).freeze with
  | (.error e,_) => ⟨program,batch,.error e,[]⟩
  | (.ok _,map) => ⟨program,batch,.ok ⟨.alreadyInstrumented,map.data,none⟩,[]⟩

def instrument (program : Program) (file : SourceFile) (options : Options) (batch : Batch) :
    PassResult :=
  if file.directives.fileIgnored then returnIgnored program file options batch
  else if program.binds (identifierOf file.path) then returnDeclared program file options batch
  else instrumentOpen program file options batch

end CoverageCounters
