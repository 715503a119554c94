import Linkedit.Proofs.Tool.Job
import Linkedit.Proofs.Tool.Lawful
import Linkedit.Proofs.Tool.Path
import Mathlib.Data.Set.List

/-!
# Jobs that take turns

While jobs take turns, files change only where jobs write their outputs, which have the
names of the files that were stripped. So a job whose file has a name of its own reads
the file as it was at the start, and what it has written stays, whatever the order of
the turns.
-/

namespace Linkedit.Tool

variable {σ ι : Type} {host : Host (StateM σ)} {view : FileView σ ι} {start final : σ}
  {log : Log}

namespace StripRequest

/-- No other file of the request has the name. -/
def Alone (request : StripRequest) (index : Nat) (name : String) : Prop :=
  ∀ other path, request.files[other]? = some path → Path.fileName? path = some name →
    other = index

/-- Files of different names have names of their own. -/
theorem Alone.of_nodup {request : StripRequest}
    (distinct : (request.files.map Path.fileName?).Nodup) {index : Nat}
    {path name : String} (found : request.files[index]? = some path)
    (named : Path.fileName? path = some name) : request.Alone index name := by
  intro other otherPath otherFound otherNamed
  have inRange : index < (request.files.map Path.fileName?).length := by
    rw [List.length_map]
    exact (List.getElem?_eq_some_iff.mp found).1
  symm
  apply (List.getElem?_inj inRange distinct).mp
  rw [List.getElem?_map, List.getElem?_map, found, otherFound, Option.map_some,
    Option.map_some, named, otherNamed]

/-- All jobs of a request have ended, each with the result that its answers call for. -/
structure Ended (request : StripRequest) (host : Host (StateM σ)) (start final : σ)
    (log : Log) (results : List (Except Failure Nat)) : Prop where
  does : host.Does start log final
  inRange : ∀ {index exchange}, (index, exchange) ∈ log → index < request.files.length
  length : results.length = request.files.length
  dealt : ∀ {index path result}, request.files[index]? = some path →
    results[index]? = some result → request.Dealt path (log.filesOf index) result

/-- Jobs that take enough turns end. -/
theorem exists_ended (host : Host (StateM σ)) (request : StripRequest) (verbosity : Nat)
    {turns : List Nat}
    (enough : ∀ index < request.files.length, jobLength ≤ turns.count index)
    (start : σ) :
    ∃ log results final,
      Script.takeTurns host (request.files.map (request.job verbosity)) turns start =
        (results.map .done, final) ∧
      Script.Turns host (request.files.map (request.job verbosity)) start turns log
        (results.map .done) final ∧
      request.Ended host start final log results := by
  rcases Script.exists_turns host
    (request.files.map (request.job verbosity)) turns start
    with ⟨log, last, final, ran, run⟩
  have length : last.length = request.files.length := by
    rw [run.length_eq, List.length_map]
  have ends : ∀ {index path}, request.files[index]? = some path →
      ∃ result, last[index]? = some (.done result) ∧
        request.Dealt path (log.filesOf index) result := by
    intro index path found
    have inRange := (List.getElem?_eq_some_iff.mp found).1
    have isJob : (request.files.map (request.job verbosity))[index]? =
        some (request.job verbosity path) := by
      rw [List.getElem?_map, found, Option.map_some]
    rcases run.meets isJob (meets_job request verbosity path) with ⟨rest, isRest, left⟩
    rw [Nat.sub_eq_zero_of_le (enough index inRange)] at left
    rcases left.exists_value with ⟨result, rfl, dealt⟩
    rw [List.append_nil] at dealt
    exact ⟨result, isRest, dealt⟩
  have allDone : ∀ job ∈ last, ∃ result, .done result = job := by
    intro job member
    rcases List.getElem_of_mem member with ⟨index, inBounds, rfl⟩
    rcases ends (List.getElem?_eq_getElem (length ▸ inBounds)) with ⟨result, isDone, -⟩
    rw [List.getElem?_eq_getElem inBounds] at isDone
    exact ⟨result, (Option.some.inj isDone).symm⟩
  have isMap : last ∈ Set.range (List.map Script.done) :=
    (Set.range_list_map Script.done).ge allDone
  rcases isMap with ⟨results, rfl⟩
  refine ⟨log, results, final, ran, run, run.does, ?inRange, ?length, ?dealt⟩
  case inRange =>
    intro index exchange member
    simpa using run.lt_length member
  case length => rw [← length, List.length_map]
  case dealt =>
    intro index path result found isResult
    rcases ends found with ⟨own, isDone, dealt⟩
    rw [List.getElem?_map, isResult] at isDone
    cases isDone
    exact dealt

namespace Ended

variable {request : StripRequest} {results : List (Except Failure Nat)}

theorem exists_dealt (ended : request.Ended host start final log results) {index : Nat}
    {path : String} (found : request.files[index]? = some path) :
    ∃ result, results[index]? = some result ∧
      request.Dealt path (log.filesOf index) result := by
  have inRange := (List.getElem?_eq_some_iff.mp found).1
  have isResult := List.getElem?_eq_getElem (ended.length.symm ▸ inRange)
  exact ⟨_, isResult, ended.dealt found isResult⟩

/-- What is written is the output of a job that has stripped its file. -/
theorem exists_stripped (ended : request.Ended host start final log results)
    {index : Nat} {exchange : Exchange} {output : String}
    (member : (index, exchange) ∈ log)
    (writes : exchange.operation.written? = some output) :
    ∃ path original stripped name, request.files[index]? = some path ∧
      ⟨.readFile path, .ok original⟩ ∈ log.filesOf index ∧
      Image.stripExports original request.removes = .ok stripped ∧
      Path.fileName? path = some name ∧ output = Path.join request.output name := by
  have found := List.getElem?_eq_getElem (ended.inRange member)
  rcases ended.exists_dealt found with ⟨result, -, dealt⟩
  have own : exchange ∈ log.filesOf index :=
    Log.mem_filesOf.mpr ⟨member, Operation.onFiles_of_written? writes⟩
  rcases dealt.stripped_of_written? own writes with
      ⟨original, stripped, name, read, strips, named, isOutput⟩
  exact ⟨_, original, stripped, name, found, read, strips, named, isOutput⟩

/-- A job whose file has a name of its own is the only one that writes to files of that
name. While it does not, they keep their content. -/
theorem content?_eq (ended : request.Ended host start final log results)
    (lawful : host.Lawful view) {index : Nat} {name target : String}
    (alone : request.Alone index name) (named : Path.fileName? target = some name)
    {part : Log} {first last : σ} (does : host.Does first part last)
    (isPart : ∀ entry ∈ part, entry ∈ log)
    (unwritten : ∀ exchange ∈ part.filesOf index, exchange.operation.written? = none) :
    view.content? last (view.place target) =
      view.content? first (view.place target) := by
  apply does.content?_eq lawful
  rintro ⟨script, exchange⟩ member output writes same
  rcases ended.exists_stripped (isPart _ member) writes with
      ⟨path, -, -, ownName, found, -, -, ownNamed, rfl⟩
  cases lawful.names (Path.fileName?_join request.output ownNamed) named same
  cases alone script path found ownNamed
  have own := Log.mem_filesOf.mpr ⟨member, Operation.onFiles_of_written? writes⟩
  cases (unwritten exchange own).symm.trans writes

/-- A job whose file has a name of its own has read the file as it was at the start, and
what it has written is there at the end. -/
theorem content?_output (ended : request.Ended host start final log results)
    (lawful : host.Lawful view) {index : Nat} {path name : String} {original : Bytes}
    {stripped : Image.Stripped} (named : Path.fileName? path = some name)
    (alone : request.Alone index name)
    (exchanged : log.filesOf index = ⟨.readFile path, .ok original⟩ ::
      (directoriesMade (Path.join request.output name) ++
        [⟨.createFile (Path.join request.output name), .ok ()⟩,
          ⟨.writeContent (Path.join request.output name) stripped.image, .ok ()⟩])) :
    view.content? start (view.place path) = some original ∧
      (¬ view.device start (view.place (Path.join request.output name)) →
        view.content? final (view.place (Path.join request.output name)) =
          some stripped.image) := by
  have outputNamed := Path.fileName?_join request.output named
  rcases @Log.exists_split_of_filesOf log index _ [] _ exchanged with
      ⟨unread, read, rfl, noneYet, sinceRead⟩
  rcases Log.exists_split_of_filesOf sinceRead with
      ⟨uncreated, created, rfl, directories, sinceCreated⟩
  rcases @Log.exists_split_of_filesOf created index _ [] _ sinceCreated with
      ⟨unwritten, written, rfl, noneBetween, noneAfter⟩
  rcases ended.does.exists_split with ⟨atRead, afterRead, reading, reads, sinceReading⟩
  rcases sinceReading.exists_split with
      ⟨atCreate, afterCreate, creating, creates, sinceCreating⟩
  rcases sinceCreating.exists_split with
      ⟨atWrite, afterWrite, writing, writes, sinceWriting⟩
  constructor
  · have same := ended.content?_eq lawful alone named reading (by simp +contextual)
      (by simp [noneYet])
    rw [← same]
    exact lawful.read reads
  · intro noDevice
    have empty := (lawful.create creates).resolve_right fun device =>
      noDevice <| reading.device lawful <| lawful.devices reads <|
        creating.device lawful <| lawful.devices creates device
    have stillEmpty := ended.content?_eq lawful alone outputNamed writing
      (by simp +contextual) (by simp [noneBetween])
    have holds := lawful.write writes (stillEmpty.trans empty)
    have same := ended.content?_eq lawful alone outputNamed sinceWriting
      (by simp +contextual) (by simp [noneAfter])
    rw [same, holds]

/-- Where a file has changed is the output of a job that has opened and stripped its
file. -/
theorem exists_of_content?_ne (ended : request.Ended host start final log results)
    (lawful : host.Lawful view) {place : ι}
    (changed : view.content? final place ≠ view.content? start place) :
    ∃ index path original stripped name, request.files[index]? = some path ∧
      ⟨.readFile path, .ok original⟩ ∈ log.filesOf index ∧
      Image.stripExports original request.removes = .ok stripped ∧
      Path.fileName? path = some name ∧
      view.place (Path.join request.output name) = place := by
  by_contra nowhere
  apply changed
  apply ended.does.content?_eq lawful
  rintro ⟨index, exchange⟩ member output writes same
  rcases ended.exists_stripped member writes with
      ⟨path, original, stripped, name, found, read, strips, named, rfl⟩
  exact nowhere ⟨index, path, original, stripped, name, found, read,
    strips, named, same⟩

end Ended

end StripRequest

end Linkedit.Tool
