import Linkedit.Proofs.Tool.Desk
import Linkedit.Proofs.Tool.InTurns
import Linkedit.Proofs.Tool.Merge

/-!
# What comes of stripping files in turns

When all jobs have ended, the outputs of all files that have names of their own are
where they belong, and a file that could not be stripped has left nothing behind. This
holds on every host that keeps its files, and for every order of the turns. It does not
hold for files that share a name: they are written over each other.
-/

namespace Linkedit.Tool

variable {σ ι : Type} {host : Host (StateM σ)} {view : FileView σ ι}

namespace StripRequest

/-- What comes of the files of a request, by what was exchanged. -/
structure Settled (request : StripRequest) (view : FileView σ ι) (start final : σ)
    (log : Log) (results : List (Except Failure Nat)) : Prop where
  length : results.length = request.files.length
  /-- Every job does with its file what its answers call for. -/
  dealt : ∀ {index path result}, request.files[index]? = some path →
    results[index]? = some result → request.Dealt path (log.filesOf index) result
  /-- A file that was stripped was read as it was at the start, and its output is there
  at the end, if the name is its own and no device is at its place. -/
  kept : ∀ {index path removed}, request.files[index]? = some path →
    results[index]? = some (.ok removed) → ∃ original stripped name,
      ⟨.readFile path, .ok original⟩ ∈ log.filesOf index ∧
      Image.stripExports original request.removes = .ok stripped ∧
      stripped.removed = removed ∧ Path.fileName? path = some name ∧
      (request.Alone index name →
        view.content? start (view.place path) = some original ∧
        (¬ view.device start (view.place (Path.join request.output name)) →
          view.content? final (view.place (Path.join request.output name)) =
            some stripped.image))
  /-- A file that failed before it was written has no output, if the name is its own. -/
  untouched : ∀ {index path failure name}, request.files[index]? = some path →
    results[index]? = some (.error failure) → Path.fileName? path = some name →
    request.Alone index name →
    (∀ fault, failure ≠ writeFailure (Path.join request.output name) fault) →
      view.content? final (view.place (Path.join request.output name)) =
        view.content? start (view.place (Path.join request.output name))
  /-- Files change only where outputs of files lie that were opened and stripped. -/
  changed : ∀ {place}, view.content? final place ≠ view.content? start place →
    ∃ index path original stripped name, request.files[index]? = some path ∧
      ⟨.readFile path, .ok original⟩ ∈ log.filesOf index ∧
      Image.stripExports original request.removes = .ok stripped ∧
      Path.fileName? path = some name ∧
      view.place (Path.join request.output name) = place

variable {request : StripRequest} {start last final : σ} {log : Log}
  {results : List (Except Failure Nat)}

/-- Jobs that have ended have settled, also after a report that changes no file. -/
theorem Ended.settled (ended : request.Ended host start last log results)
    (lawful : host.Lawful view)
    (same : ∀ place, view.content? final place = view.content? last place) :
    request.Settled view start final log results where
  length := ended.length
  dealt := ended.dealt
  kept := by
    intro index path removed found isResult
    have dealt := ended.dealt found isResult
    generalize exchanged : log.filesOf index = exchanges at dealt
    cases dealt with
    | @written original stripped name _ strips named wrote =>
        refine ⟨original, stripped, name, List.mem_cons_self, strips, rfl, named, ?_⟩
        intro alone
        rw [wrote.eq_of_ok] at exchanged
        rcases ended.content?_output lawful named alone exchanged with ⟨held, output⟩
        refine ⟨held, fun noDevice => ?_⟩
        rw [same, output noDevice]
  untouched := by
    intro index path failure name found isResult named alone early
    have outputNamed := Path.fileName?_join request.output named
    rw [same]
    exact ended.content?_eq lawful alone outputNamed ended.does (fun _ => id)
      ((ended.dealt found isResult).written?_eq_none named early)
  changed := by
    intro place differs
    rw [same] at differs
    exact ended.exists_of_content?_ne lawful differs

/-- The output of a file that was stripped is made from what the file was. -/
theorem Settled.content?_output (settled : request.Settled view start final log results)
    {index : Nat} {path name : String} {original : Bytes} {stripped : Image.Stripped}
    (found : request.files[index]? = some path)
    (succeeds : request.Succeeds path (log.filesOf index))
    (named : Path.fileName? path = some name) (alone : request.Alone index name)
    (held : view.content? start (view.place path) = some original)
    (strips : Image.stripExports original request.removes = .ok stripped)
    (noDevice : ¬ view.device start (view.place (Path.join request.output name))) :
    view.content? final (view.place (Path.join request.output name)) =
      some stripped.image := by
  have inBounds : index < results.length :=
    settled.length ▸ (List.getElem?_eq_some_iff.mp found).1
  have isResult := List.getElem?_eq_getElem inBounds
  rcases (settled.dealt found isResult).ok_iff.mpr succeeds with ⟨removed, good⟩
  rcases settled.kept found (isResult.trans (congrArg some good)) with
      ⟨_, _, _, -, ownStrips, -, ownNamed, kept⟩
  cases named.symm.trans ownNamed
  rcases kept alone with ⟨ownHeld, output⟩
  cases held.symm.trans ownHeld
  cases strips.symm.trans ownStrips
  exact output noDevice

/-- All results are good if and only if all jobs were answered well. -/
theorem Ended.all_ok_iff (ended : request.Ended host start last log results) :
    (∀ result ∈ results, ∃ removed, result = .ok removed) ↔
      ∀ index path, request.files[index]? = some path →
        request.Succeeds path (log.filesOf index) := by
  constructor
  · intro good index path found
    rcases ended.exists_dealt found with ⟨result, isResult, dealt⟩
    exact dealt.ok_iff.mp (good result (List.mem_of_getElem? isResult))
  · intro succeed result member
    rcases List.getElem_of_mem member with ⟨index, inBounds, rfl⟩
    have found := List.getElem?_eq_getElem (ended.length ▸ inBounds)
    have dealt := ended.dealt found (List.getElem?_eq_getElem inBounds)
    exact dealt.ok_iff.mpr (succeed index _ found)

end StripRequest

/-! ## All turns -/

theorem stripInTurns_eq {verbosity : Nat} {request : StripRequest} {turns : List Nat}
    {start last final : σ} {results : List (Except Failure Nat)}
    {outcome : Except Failure Unit} (asked : request.isEmpty = false)
    (ran :
      Script.takeTurns host (request.files.map (request.job verbosity)) turns start =
        (results.map .done, last))
    (merged : ((Session.mk host verbosity).mergeResults (request.files.zip results)).run
      last = (outcome, final)) :
    (Session.mk host verbosity).stripInTurns request turns start =
      (some outcome, final) := by
  rw [Session.stripInTurns, asked, if_neg Bool.false_ne_true]
  rw [bind_apply ran, Script.mapM_value?_eq_some.mpr rfl]
  exact bind_apply merged

/-- Stripping files in turns ends after enough turns. It succeeds if and only if
something is to be removed and every file is opened, stripped and written, by the
answers of the host. -/
theorem stripInTurns_settles (lawful : host.Lawful view) (verbosity : Nat)
    (request : StripRequest) (turns : List Nat) (start : σ)
    (enough : ∀ index < request.files.length, StripRequest.jobLength ≤
      turns.count index) :
    ∃ outcome final,
      (Session.mk host verbosity).stripInTurns request turns start =
        (some outcome, final) ∧
      (request.isEmpty = true →
        outcome = .error Session.nothingToRemove ∧ final = start) ∧
      (request.isEmpty = false → ∃ log results last,
        Script.Turns host (request.files.map (request.job verbosity)) start turns log
          (results.map .done) last ∧
        request.Settled view start final log results ∧
        (outcome = .ok () ↔ ∀ index path, request.files[index]? = some path →
          request.Succeeds path (log.filesOf index))) := by
  cases asked : request.isEmpty with
  | true =>
      rw [Session.stripInTurns, asked]
      refine ⟨_, start, rfl, fun _ => ⟨rfl, rfl⟩, ?_⟩
      intro untrue
      cases untrue
  | false =>
      rcases request.exists_ended host verbosity enough start with
          ⟨log, results, last, ran, run, ended⟩
      rcases FileView.Keeps.mergeResults lawful verbosity
        (request.files.zip results) last with ⟨final, merged, same⟩
      refine ⟨_, final, stripInTurns_eq asked ran merged, (absurd · Bool.false_ne_true),
        fun _ => ⟨log, results, last, run, ended.settled lawful same, ?_⟩⟩
      have allOk : (∀ result ∈ (request.files.zip results).map Prod.snd,
          ∃ removed, result = .ok removed) ↔
            ∀ result ∈ request.files.zip results, ∃ removed, result.2 = .ok removed :=
        List.forall_mem_map
      rw [outcomeOf_eq_ok, ← allOk, List.map_snd_zip ended.length.le, ended.all_ok_iff]

/-- An image with an empty export trie and a last byte of its own. -/
def emptyTrieImage (last : UInt8) : Bytes :=
  (Image.Header.encode .bits64
      { Image.Header.empty with commandCount := 1, commandSize := 16 } ++
    Image.DataCommand.encode
      { Image.DataCommand.empty with dataOffset := 48 }).toArray.push last

/-- A desk with two images in directories of their own. -/
def twoImages (first second : String) : Desk where
  tree := { nodes := [(["x"], .directory), (["x", first], .file (emptyTrieImage 1)),
    (["y"], .directory), (["y", second], .file (emptyTrieImage 2))] }

/-- Strips two images of a name that they do not export. -/
def stripTwo (first second : String) : StripRequest where
  files := [first, second]
  names := ["c"]
  start? := none
  output := "s"

/-- The session that runs on a desk. -/
def deskSession : Session (StateM Desk) := ⟨Desk.host "0", 0⟩

theorem stripInTurns_settles_apart :
    let turns := [0, 1, 1, 0, 0, 1, 1, 0, 0, 1, 1, 0, 0, 1, 1, 0, 0, 1]
    (Desk.host "0").Lawful Desk.view ∧
    (∀ index < 2, StripRequest.jobLength ≤ turns.count index) ∧
    ∃ finish,
      deskSession.stripInTurns (stripTwo "x/a" "y/b") turns (twoImages "a" "b") =
        (some (.ok ()), finish) ∧
      finish.tree.content? (Path.place "s/a") = some (emptyTrieImage 1) ∧
      finish.tree.content? (Path.place "s/b") = some (emptyTrieImage 2) := by
  intro turns
  have enough : ∀ index < 2, StripRequest.jobLength ≤ turns.count index := by decide
  rcases stripInTurns_settles (Desk.lawful "0") 0 (stripTwo "x/a" "y/b") turns
      (twoImages "a" "b") enough with ⟨outcome, finish, ran, -, settles⟩
  rcases settles rfl with ⟨log, results, last, -, settled, success⟩
  have succeeds : (deskSession.stripInTurns (stripTwo "x/a" "y/b") turns
      (twoImages "a" "b")).1 = some (.ok ()) := by decide +kernel
  rw [deskSession, ran] at succeeds
  cases succeeds
  have named : Path.fileName? "x/a" = some "a" ∧ Path.fileName? "y/b" = some "b" := by
    decide +kernel
  have distinct : ((stripTwo "x/a" "y/b").files.map Path.fileName?).Nodup := by
    decide +kernel
  have held : (twoImages "a" "b").tree.content? (Path.place "x/a") =
        some (emptyTrieImage 1) ∧
      (twoImages "a" "b").tree.content? (Path.place "y/b") =
        some (emptyTrieImage 2) := by
    decide +kernel
  have strips (last : UInt8) (either : last = 1 ∨ last = 2) :
      Image.stripExports (emptyTrieImage last) (stripTwo "x/a" "y/b").removes =
        .ok ⟨⟨0, 0, 0⟩, emptyTrieImage last⟩ := by
    rcases either with rfl | rfl <;> decide +kernel
  have outputs : Path.join "s" "a" = "s/a" ∧ Path.join "s" "b" = "s/b" := by
    decide +kernel
  have vacant : (twoImages "a" "b").tree.find? (Path.place "s/a") = none ∧
      (twoImages "a" "b").tree.find? (Path.place "s/b") = none := by decide +kernel
  refine ⟨Desk.lawful "0", enough, finish, ran, ?_, ?_⟩
  · rw [← outputs.1] at vacant ⊢
    apply settled.content?_output rfl (success.mp rfl 0 "x/a" rfl)
      named.1 (.of_nodup distinct rfl named.1) held.1 (strips 1 (.inl rfl))
    rintro ⟨full, device⟩
    cases vacant.1.symm.trans device
  · rw [← outputs.2] at vacant ⊢
    apply settled.content?_output rfl (success.mp rfl 1 "y/b" rfl)
      named.2 (.of_nodup distinct rfl named.2) held.2 (strips 2 (.inr rfl))
    rintro ⟨full, device⟩
    cases vacant.2.symm.trans device

/-- The images of two files of one name are written over each other. The command
succeeds, and only the image that was written last is left. -/
theorem namesake_lost :
    let turns := Script.oneByOne StripRequest.jobLength 0 2
    let run := deskSession.stripInTurns (stripTwo "x/lib" "y/lib") turns
      (twoImages "lib" "lib")
    run.1 = some (.ok ()) ∧
      (Image.stripExports (emptyTrieImage 1) (stripTwo "x/lib" "y/lib").removes).map
        (·.image) = .ok (emptyTrieImage 1) ∧
      run.2.tree.readFile "s/lib" = .ok (emptyTrieImage 2) ∧
      emptyTrieImage 1 ≠ emptyTrieImage 2 := by
  decide +kernel

end Linkedit.Tool
