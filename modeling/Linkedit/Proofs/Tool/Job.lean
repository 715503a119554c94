import Linkedit.Tool.Parallel
import Linkedit.Proofs.Image.Strip
import Linkedit.Proofs.Tool.Exchange

/-!
# What a job does

A job that strips a file reads it, makes the output directory and writes the stripped
image there. If the file cannot be stripped, the job asks for nothing more than lines to
be printed.
-/

namespace Linkedit.Tool

/-! ## Scripts that print -/

/-- A script that asks for nothing but lines to be printed, at most so many of them. -/
inductive Script.Prints {α : Type} : Nat → Script α → α → Prop where
  | done {bound : Nat} (value : α) : Prints bound (.done value) value
  | line {bound : Nat} {line : String} {next : Unit → Script α} {value : α}
      (further : Prints bound (next ()) value) :
      Prints (bound + 1) (.ask (.printLine line) next) value

namespace Script.Prints

variable {α β : Type} {bound other : Nat}

theorem weaken (extra : Nat) {script : Script α} {value : α}
    (prints : Prints bound script value) : Prints (bound + extra) script value := by
  induction prints with
  | done value => exact .done value
  | line _ ih =>
      rw [Nat.add_right_comm]
      exact .line ih

theorem bind {script : Script α} {next : α → Script β} {value : α} {last : β}
    (prints : Prints bound script value) (further : Prints other (next value) last) :
    Prints (bound + other) (script >>= next) last := by
  induction prints with
  | @done bound =>
      rw [Nat.add_comm]
      exact further.weaken bound
  | line _ ih =>
      rw [Nat.add_right_comm]
      exact .line (ih further)

/-- An action that prints, followed by one that does not run if the first fails. -/
theorem bindAction {action : Action Script α} {next : α → Action Script β}
    {outcome : Except Failure α} {last : α → Except Failure β}
    (prints : Prints bound action.run outcome)
    (further : ∀ value, Prints other (next value).run (last value)) :
    Prints (bound + other) (action >>= next).run (outcome >>= last) := by
  rw [ExceptT.run_bind]
  apply prints.bind
  cases outcome with
  | ok value => exact further value
  | error failure => exact .done _

end Script.Prints

namespace Session

variable (verbosity : Nat)

theorem prints_take {α : Type} (context? : Option String) (result : Except Error α) :
    Script.Prints 0 (take (m := Script) context? result).run
      (result.mapError (Failure.error context?)) := .done _

theorem prints_report (level : Level) (message : String) :
    Script.Prints 1 (liftM ((scripted verbosity).report level message) :
      Action Script Unit).run (.ok ()) := by
  rw [report]
  split
  · exact .line (.done _)
  · exact .done _

/-- A report adds a line to what an action prints. -/
theorem prints_report_bind {α : Type} {bound : Nat} {level : Level} {message : String}
    {next : Unit → Action Script α} {outcome : Except Failure α}
    (prints : Script.Prints bound (next ()).run outcome) :
    Script.Prints (bound + 1)
      (liftM ((scripted verbosity).report level message) >>= next).run outcome := by
  rw [Nat.add_comm]
  exact (prints_report verbosity level message).bindAction fun _ => prints

theorem prints_parseImage (context : String) (data : Bytes) :
    Script.Prints 1 ((scripted verbosity).parseImage context data).run
      ((Image.parse data).mapError (Failure.error (some context))) := by
  rw [parseImage, ← bind_pure (Except.mapError _ _)]
  apply @Script.Prints.bindAction _ _ 0 1
  · exact prints_take (some context) (Image.parse data)
  · intro image
    apply prints_report_bind
    exact .done (Except.ok image)

/-- Stripping an image in memory prints lines and nothing else. -/
theorem prints_stripImage (path : String) (data : Bytes) (remove : Name → Bool) :
    Script.Prints 3 ((scripted verbosity).stripImage path data remove).run
      ((Image.stripExports data remove).mapError
        (Failure.error (some s!"Failed to strip: {path}"))) := by
  rw [Image.stripExports_eq_bind, stripImage]
  simp only [mapError_bind, Trie.prune, bind_assoc]
  apply @Script.Prints.bindAction _ _ 1 2
  · exact prints_parseImage verbosity _ data
  intro image
  apply @Script.Prints.bindAction _ _ 0 2
  · exact prints_take _ image.exportsSlot
  intro slot
  apply @Script.Prints.bindAction _ _ 0 2
  · exact prints_take _ (Trie.rewrite (image.bytesIn slot) remove)
  intro rewrite
  cases rewrite with
  | unchanged =>
      apply @Script.Prints.bindAction _ _ 0 2
      · exact prints_take _ (Trie.Rewrite.unchanged.apply (image.bytesIn slot))
      · intro pruned
        exact .done (Except.ok (image.withSlot slot pruned))
  | replaced layout removed total =>
      apply prints_report_bind
      apply @Script.Prints.bindAction _ _ 0 1
      · exact prints_take _
          ((Trie.Rewrite.replaced layout removed total).apply (image.bytesIn slot))
      · intro pruned
        apply prints_report_bind
        exact .done (Except.ok (image.withSlot slot pruned))

end Session

/-! ## What a job exchanges -/

/-- The exchange that makes the directories above an output, if there are any. -/
def directoriesMade (output : String) : List Exchange :=
  if (Path.parent output).isEmpty then []
  else [⟨.createDirectories (Path.parent output), .ok ()⟩]

/-- The failure of a file that cannot be written. -/
def writeFailure (output : String) (fault : FileFault) : Failure :=
  .error none (.fileWrite output fault)

/-- What is exchanged to write an output, and how it ends by the answers. -/
inductive Wrote (output : String) (content : Bytes) :
    List Exchange → Except FileFault Unit → Prop where
  | undirected {fault : FileFault} (deep : (Path.parent output).isEmpty = false) :
      Wrote output content [⟨.createDirectories (Path.parent output), .error fault⟩]
        (.error fault)
  | uncreated {fault : FileFault} :
      Wrote output content
        (directoriesMade output ++ [⟨.createFile output, .error fault⟩]) (.error fault)
  | unwritten {fault : FileFault} :
      Wrote output content
        (directoriesMade output ++ [⟨.createFile output, .ok ()⟩,
          ⟨.writeContent output content, .error fault⟩]) (.error fault)
  | written :
      Wrote output content
        (directoriesMade output ++ [⟨.createFile output, .ok ()⟩,
          ⟨.writeContent output content, .ok ()⟩]) (.ok ())

namespace StripRequest

/-- What a job exchanges on files, and how it ends by the answers: the file cannot be
opened, its image cannot be stripped, it has no name, or its output is written or
not. -/
inductive Dealt (request : StripRequest) (path : String) :
    List Exchange → Except Failure Nat → Prop where
  | unopened {error : Error} :
      Dealt request path [⟨.readFile path, .error error⟩] (.error (.error none error))
  | unstripped {original : Bytes} {error : Error}
      (refused : Image.stripExports original request.removes = .error error) :
      Dealt request path [⟨.readFile path, .ok original⟩]
        (.error (.error (some s!"Failed to strip: {path}") error))
  | unnamed {original : Bytes} {stripped : Image.Stripped}
      (strips : Image.stripExports original request.removes = .ok stripped)
      (unnamed : Path.fileName? path = none) :
      Dealt request path [⟨.readFile path, .ok original⟩]
        (.error (.plain s!"No file name: {path}"))
  | unwritten {original : Bytes} {stripped : Image.Stripped} {name : String}
      {exchanges : List Exchange} {fault : FileFault}
      (strips : Image.stripExports original request.removes = .ok stripped)
      (named : Path.fileName? path = some name)
      (wrote : Wrote (Path.join request.output name) stripped.image exchanges
        (.error fault)) :
      Dealt request path (⟨.readFile path, .ok original⟩ :: exchanges)
        (.error (writeFailure (Path.join request.output name) fault))
  | written {original : Bytes} {stripped : Image.Stripped} {name : String}
      {exchanges : List Exchange}
      (strips : Image.stripExports original request.removes = .ok stripped)
      (named : Path.fileName? path = some name)
      (wrote : Wrote (Path.join request.output name)
        stripped.image exchanges (.ok ())) :
      Dealt request path (⟨.readFile path, .ok original⟩ :: exchanges)
        (.ok stripped.removed)

/-- A job opens its file, strips it and writes the output without an error. -/
def Succeeds (request : StripRequest) (path : String) (exchanges : List Exchange) :
    Prop :=
  ∃ original stripped name,
    Image.stripExports original request.removes = .ok stripped ∧
    Path.fileName? path = some name ∧
    exchanges = ⟨.readFile path, .ok original⟩ ::
      (directoriesMade (Path.join request.output name) ++
        [⟨.createFile (Path.join request.output name), .ok ()⟩,
          ⟨.writeContent (Path.join request.output name) stripped.image, .ok ()⟩])

end StripRequest

/-! ### What follows from the exchanges -/

theorem written?_directoriesMade {output : String} {exchange : Exchange}
    (member : exchange ∈ directoriesMade output) :
    exchange.operation.written? = none := by
  rw [directoriesMade] at member
  split at member
  · cases member
  · cases List.mem_singleton.mp member
    rfl

/-- Writing an output writes to no other file. -/
theorem Wrote.eq_output {output path : String} {content : Bytes}
    {exchanges : List Exchange} {result : Except FileFault Unit} {exchange : Exchange}
    (wrote : Wrote output content exchanges result) (member : exchange ∈ exchanges)
    (writes : exchange.operation.written? = some path) : path = output := by
  have notMade : exchange ∉ directoriesMade output := by
    intro made
    cases (written?_directoriesMade made).symm.trans writes
  cases wrote with
  | undirected =>
      cases List.mem_singleton.mp member
      cases writes
  | uncreated =>
      rcases List.mem_append.mp member with made | created
      · exact absurd made notMade
      · cases List.mem_singleton.mp created
        cases writes
        rfl
  | unwritten | written =>
      rcases List.mem_append.mp member with made | other
      · exact absurd made notMade
      · rcases List.mem_cons.mp other with rfl | last
        · cases writes
          rfl
        · cases List.mem_singleton.mp last
          cases writes
          rfl

theorem Wrote.eq_of_ok {output : String} {content : Bytes} {exchanges : List Exchange}
    (wrote : Wrote output content exchanges (.ok ())) :
    exchanges = directoriesMade output ++
      [⟨.createFile output, .ok ()⟩, ⟨.writeContent output content, .ok ()⟩] := by
  cases wrote with
  | written => rfl

/-- An output that was not written was not answered as if it was. -/
theorem Wrote.ne_of_error {output : String} {content : Bytes}
    {exchanges : List Exchange} {fault : FileFault}
    (wrote : Wrote output content exchanges (.error fault)) :
    exchanges ≠ directoriesMade output ++
      [⟨.createFile output, .ok ()⟩, ⟨.writeContent output content, .ok ()⟩] := by
  cases wrote with
  | undirected deep => simp [directoriesMade, deep]
  | uncreated => simp
  | unwritten =>
      intro same
      cases List.append_cancel_left same

namespace StripRequest

variable {request : StripRequest} {path : String} {exchanges : List Exchange}

/-- A job ends well if and only if all of its answers are good. -/
theorem Dealt.ok_iff {result : Except Failure Nat}
    (dealt : request.Dealt path exchanges result) :
    (∃ removed, result = .ok removed) ↔ request.Succeeds path exchanges := by
  constructor
  · rintro ⟨removed, rfl⟩
    cases dealt with
    | @written original stripped name exchanges strips named wrote =>
        exact ⟨original, stripped, name, strips, named, by rw [wrote.eq_of_ok]⟩
  · rintro ⟨original, stripped, name, strips, named, whole⟩
    cases dealt with
    | unopened => simp at whole
    | unstripped => simp at whole
    | unnamed => simp at whole
    | written => exact ⟨_, rfl⟩
    | unwritten ownStrips ownNamed wrote =>
        rcases List.cons.inj whole with ⟨read, rest⟩
        cases read
        cases strips.symm.trans ownStrips
        cases named.symm.trans ownNamed
        exact absurd rest wrote.ne_of_error

/-- A job writes to its output only, and only when it has stripped its file. -/
theorem Dealt.stripped_of_written? {result : Except Failure Nat} {exchange : Exchange}
    {output : String} (dealt : request.Dealt path exchanges result)
    (member : exchange ∈ exchanges)
    (writes : exchange.operation.written? = some output) :
    ∃ original stripped name,
      ⟨.readFile path, .ok original⟩ ∈ exchanges ∧
      Image.stripExports original request.removes = .ok stripped ∧
      Path.fileName? path = some name ∧ output = Path.join request.output name := by
  cases dealt with
  | unopened | unstripped | unnamed =>
      cases List.mem_singleton.mp member
      cases writes
  | unwritten strips named wrote | written strips named wrote =>
      rcases List.mem_cons.mp member with rfl | later
      · cases writes
      · exact ⟨_, _, _, List.mem_cons_self, strips, named, wrote.eq_output later writes⟩

/-- A job that fails otherwise than in writing writes to no file. -/
theorem Dealt.written?_eq_none {name : String} {failure : Failure}
    (dealt : request.Dealt path exchanges (.error failure))
    (named : Path.fileName? path = some name)
    (early : ∀ fault, failure ≠ writeFailure (Path.join request.output name) fault) :
    ∀ exchange ∈ exchanges, exchange.operation.written? = none := by
  intro exchange member
  cases dealt with
  | unopened | unstripped | unnamed =>
      cases List.mem_singleton.mp member
      rfl
  | unwritten strips ownNamed wrote =>
      cases named.symm.trans ownNamed
      exact absurd rfl (early _)

end StripRequest

namespace Script.Meets

variable {α β : Type} {bound other : Nat}
  {post : List Exchange → Except Failure β → Prop}

/-- A script that prints exchanges nothing on files. -/
theorem of_prints {script : Script α} {value : α} (prints : Prints bound script value) :
    Meets bound (fun exchanges last => exchanges = [] ∧ last = value) script := by
  induction prints with
  | done value => exact .done ⟨rfl, rfl⟩
  | line _ ih => exact .aside rfl fun _ => ih

/-- An action that prints, followed by one that does not run if the first fails. -/
theorem after_prints {action : Action Script α} {next : α → Action Script β}
    {outcome : Except Failure α} (prints : Prints bound action.run outcome)
    (failed : ∀ failure, outcome = .error failure → post [] (.error failure))
    (further : ∀ value, outcome = .ok value → Meets other post (next value).run) :
    Meets (bound + other) post (action >>= next).run := by
  rw [ExceptT.run_bind]
  apply (of_prints prints).bind
  rintro exchanges last ⟨rfl, rfl⟩
  cases last with
  | error failure => exact .done (failed failure rfl)
  | ok value => exact further value rfl

/-- An action, followed by one that does not run if the first fails. -/
theorem bindAction {action : Action Script α} {next : α → Action Script β}
    {first : List Exchange → Except Failure α → Prop}
    (meets : Meets bound first action.run)
    (failed : ∀ exchanges failure, first exchanges (.error failure) →
      post exchanges (.error failure))
    (further : ∀ exchanges value, first exchanges (.ok value) →
      Meets other (fun later => post (exchanges ++ later)) (next value).run) :
    Meets (bound + other) post (action >>= next).run := by
  rw [ExceptT.run_bind]
  apply meets.bind
  rintro exchanges (failure | value) holds
  · apply Meets.done
    rw [List.append_nil]
    exact failed exchanges failure holds
  · exact further exchanges value holds

end Script.Meets

/-! ## What a job does -/

section Job

variable (request : StripRequest) (verbosity : Nat) (path output : String)
  (content : Bytes)

theorem meets_makeDirectories :
    Script.Meets 1
      (fun exchanges result =>
        (exchanges = directoriesMade output ∧ result = .ok ()) ∨
          ∃ fault, Wrote output content exchanges (.error fault) ∧
            result = .error (writeFailure output fault))
      ((Session.scripted verbosity).makeDirectories output).run := by
  rw [Session.makeDirectories]
  split
  next deep =>
    have isDeep : (Path.parent output).isEmpty = false := by simpa using deep
    apply Script.Meets.ask rfl
    rintro (fault | _)
    · exact .done (.inr ⟨fault, .undirected isDeep, rfl⟩)
    · refine .done (.inl ⟨?_, rfl⟩)
      rw [directoriesMade, isDeep, if_neg Bool.false_ne_true]
  next flat =>
    have isFlat : (Path.parent output).isEmpty = true := by simpa using flat
    refine .done (.inl ⟨?_, rfl⟩)
    rw [directoriesMade, isFlat, if_pos rfl]

theorem meets_writeFile :
    Script.Meets 4
      (fun exchanges result =>
        (Wrote output content exchanges (.ok ()) ∧ result = .ok ()) ∨
          ∃ fault, Wrote output content exchanges (.error fault) ∧
            result = .error (writeFailure output fault))
      ((Session.scripted verbosity).writeFile output content).run := by
  rw [Session.writeFile]
  apply @Script.Meets.bindAction _ _ 1 3
  · exact meets_makeDirectories verbosity output content
  · rintro exchanges failure (⟨-, same⟩ | failed)
    · cases same
    · exact .inr failed
  rintro exchanges ⟨⟩ (⟨rfl, -⟩ | ⟨fault, -, same⟩)
  · apply @Script.Meets.ask _ 2 _ _ _ rfl
    rintro (fault | _)
    · exact .done (.inr ⟨fault, .uncreated, rfl⟩)
    apply @Script.Meets.ask _ 1 _ _ _ rfl
    rintro (fault | _)
    · exact .done (.inr ⟨fault, .unwritten, rfl⟩)
    apply (Script.Meets.of_prints (Session.prints_report verbosity .debug _)).mono
    rintro later result ⟨rfl, rfl⟩
    exact .inl ⟨.written, rfl⟩
  · cases same

end Job

/-- The most operations that a job asks for. -/
def StripRequest.jobLength : Nat := 9

/-- A job deals with its file as its answers call for. -/
theorem meets_job (request : StripRequest) (verbosity : Nat) (path : String) :
    Script.Meets StripRequest.jobLength (request.Dealt path)
      (request.job verbosity path) := by
  rw [StripRequest.job, Session.stripFile]
  apply @Script.Meets.ask _ 8 _ _ _ rfl
  rintro (error | original)
  · exact .done .unopened
  apply @Script.Meets.after_prints _ _ 3 5
  · exact Session.prints_stripImage verbosity path original request.removes
  · intro failure failed
    rcases mapError_eq_error.mp failed with ⟨error, refused, rfl⟩
    exact .unstripped refused
  intro stripped succeeded
  have strips := mapError_eq_ok.mp succeeded
  cases named : Path.fileName? path with
  | none => exact .done (.unnamed strips named)
  | some name =>
      apply @Script.Meets.bindAction _ _ 4 1
      · exact meets_writeFile verbosity (Path.join request.output name) stripped.image
      · rintro exchanges failure (⟨-, same⟩ | ⟨fault, wrote, same⟩)
        · cases same
        · cases same
          exact .unwritten strips named wrote
      rintro exchanges ⟨⟩ (⟨wrote, -⟩ | ⟨fault, -, same⟩)
      · apply @Script.Meets.after_prints _ _ 1 0
        · exact Session.prints_report verbosity .info _
        · intro failure failed
          cases failed
        · rintro ⟨⟩ -
          refine .done ?_
          rw [List.append_nil]
          exact .written strips named wrote
      · cases same

/-! ## A job that is carried out -/

section CarryOut

variable {m : Type → Type} [Monad m] {α β : Type}

/-- Carries out an action that is written down. -/
def carryOutAction (host : Host m) (action : Action Script α) : Action m α :=
  ExceptT.mk (action.run.carryOut host)

@[simp] theorem carryOutAction_pure (host : Host m) (value : α) :
    carryOutAction host (pure value) = pure value := rfl

@[simp] theorem carryOutAction_throw (host : Host m) (failure : Failure) :
    carryOutAction host (throw failure : Action Script α) = throw failure := rfl

@[simp] theorem carryOutAction_take (host : Host m) (context? : Option String)
    (result : Except Error α) :
    carryOutAction host (Session.take context? result) = Session.take context? result :=
      rfl

@[simp] theorem carryOutAction_takeWrite (host : Host m) (path : String)
    (result : Except FileFault Unit) :
    carryOutAction host (Session.takeWrite path result) =
      Session.takeWrite path result :=
  rfl

variable [LawfulMonad m]

@[simp] theorem carryOutAction_bind (host : Host m) (action : Action Script α)
    (next : α → Action Script β) :
    carryOutAction host (action >>= next) =
      carryOutAction host action >>= fun value => carryOutAction host (next value) := by
  apply ExceptT.ext
  simp only [carryOutAction, ExceptT.run_bind, ExceptT.run_mk, Script.carryOut_bind]
  apply bind_congr
  rintro (failure | value) <;> rfl

@[simp] theorem carryOutAction_lift (host : Host m) (script : Script α) :
    carryOutAction host (liftM script : Action Script α) =
      liftM (script.carryOut host) := by
  apply ExceptT.ext
  have run : (carryOutAction host (liftM script : Action Script α)).run =
    (script >>= fun value => Script.done (Except.ok value)).carryOut host := rfl
  rw [run, Script.carryOut_bind]
  exact bind_pure_comp Except.ok (script.carryOut host)

variable (session : Session m)

@[simp] theorem carryOut_readFile (path : String) :
    ((Session.scripted session.verbosity).host.readFile path).carryOut session.host =
      session.host.readFile path :=
  Script.carryOut_single session.host (.readFile path)

@[simp] theorem carryOut_createDirectories (path : String) :
    ((Session.scripted session.verbosity).host.createDirectories path).carryOut
      session.host = session.host.createDirectories path :=
  Script.carryOut_single session.host (.createDirectories path)

@[simp] theorem carryOut_createFile (path : String) :
    ((Session.scripted session.verbosity).host.createFile path).carryOut session.host =
      session.host.createFile path :=
  Script.carryOut_single session.host (.createFile path)

@[simp] theorem carryOut_writeContent (path : String) (content : Bytes) :
    ((Session.scripted session.verbosity).host.writeContent path content).carryOut
        session.host =
      session.host.writeContent path content :=
  Script.carryOut_single session.host (.writeContent path content)

@[simp] theorem carryOut_report (level : Level) (message : String) :
    ((Session.scripted session.verbosity).report level message).carryOut session.host =
      session.report level message := by
  rw [Session.report, Session.report]
  by_cases reported : level.threshold ≤ session.verbosity
  · rw [if_pos reported, if_pos (by exact reported)]
    exact Script.carryOut_single session.host (.printLine _)
  · rw [if_neg reported, if_neg (by exact reported)]
    rfl

@[simp] theorem carryOutAction_parseImage (context : String) (data : Bytes) :
    carryOutAction session.host
      ((Session.scripted session.verbosity).parseImage context data) =
        session.parseImage context data := by
  simp [Session.parseImage]

@[simp] theorem carryOutAction_stripImage (path : String) (data : Bytes)
    (remove : Name → Bool) :
    carryOutAction session.host
        ((Session.scripted session.verbosity).stripImage path data remove) =
      session.stripImage path data remove := by
  simp only [Session.stripImage, carryOutAction_bind, carryOutAction_parseImage,
    carryOutAction_take]
  apply bind_congr
  intro image
  apply bind_congr
  intro slot
  apply bind_congr
  intro rewrite
  cases rewrite <;> simp

@[simp] theorem carryOutAction_makeDirectories (path : String) :
    carryOutAction session.host
        ((Session.scripted session.verbosity).makeDirectories path) =
      session.makeDirectories path := by
  simp only [Session.makeDirectories]
  split <;> simp

@[simp] theorem carryOutAction_writeFile (path : String) (content : Bytes) :
    carryOutAction session.host
        ((Session.scripted session.verbosity).writeFile path content) =
      session.writeFile path content := by
  simp [Session.writeFile]

/-- A job that is carried out on its own strips the file. -/
theorem carryOut_job (request : StripRequest) (path : String) :
    (request.job session.verbosity path).carryOut session.host =
      (session.stripFile request path).run := by
  have run : (request.job session.verbosity path).carryOut session.host =
    (carryOutAction session.host
      ((Session.scripted session.verbosity).stripFile request path)).run := rfl
  rw [run, Session.stripFile, Session.stripFile]
  simp only [Session.readFile, carryOutAction_bind, carryOutAction_lift,
    carryOut_readFile, carryOutAction_take, carryOutAction_stripImage]
  congr 1
  apply bind_congr
  intro original
  apply bind_congr
  intro stripped
  cases Path.fileName? path <;> simp

/-- Stripping files keeps what came of each of them beside its path. -/
theorem forEachFile_eq_zip (files : List String) (action : String → Action m α) :
    Session.forEachFile files action =
      files.mapM (fun path => (action path).run) >>= fun results =>
        return files.zip results := by
  rw [Session.forEachFile]
  induction files with
  | nil => simp
  | cons path files ih =>
      rw [List.mapM_cons, List.mapM_cons, ih]
      simp

/-- Files that are stripped one after the other are stripped by jobs that take all their
turns at once. -/
theorem stripInTurns_oneByOne (request : StripRequest) :
    session.stripInTurns request
        (Script.oneByOne StripRequest.jobLength 0 request.files.length) =
      some <$> (session.stripExports request).run := by
  rw [Session.stripInTurns, Session.stripExports]
  split
  · simp
  · have ends : ∀ job ∈ request.files.map (request.job session.verbosity),
        job.EndsWithin StripRequest.jobLength := by
      intro job member
      rcases List.mem_map.mp member with ⟨path, -, rfl⟩
      exact (meets_job request session.verbosity path).endsWithin
    have inTurns := Script.takeTurns_oneByOne session.host [] ends
    rw [List.map_nil, List.nil_append, List.length_nil, List.length_map] at inTurns
    have alone : Script.carryOut session.host ∘ request.job session.verbosity =
        fun path => (session.stripFile request path).run :=
      funext (carryOut_job session request)
    rw [inTurns, List.mapM_map, alone, forEachFile_eq_zip]
    simp only [bind_assoc, pure_bind, List.nil_append,
      Script.mapM_value?_eq_some.mpr rfl]
    have merges :
            (liftM
              (request.files.mapM (fun path => (session.stripFile request path).run)
            >>= fun results => return request.files.zip results) >>=
              session.mergeResults).run =
          request.files.mapM (fun path => (session.stripFile request path).run) >>=
            fun results => (session.mergeResults (request.files.zip results)).run :=
      (ExceptT.run_bind_lift _ _).trans (by simp)
    rw [merges]
    simp

end CarryOut

end Linkedit.Tool
