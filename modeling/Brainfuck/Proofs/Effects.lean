import Brainfuck.Proofs.Stores
import Brainfuck.Run.Basic

/-! What a run of the compiler leaves behind, on any store that keeps to its laws.

What the run does to the files and to standard output depends on the request and on the files as
they were at its start. The log and the diagnostic go to standard error and nowhere else. Each stage
of the compilation either ends it with an error, or logs and goes on. -/

namespace Brainfuck

namespace Log.Settings

/-- What is written down of some events in the compilation of a file. -/
def transcript (settings : Settings) (path : Path) (events : List Event) : String :=
  String.join (events.filterMap (settings.render? (some path)))

variable (settings : Settings) (path : Path)

@[simp] theorem transcript_nil : settings.transcript path [] = "" := rfl

theorem transcript_append (front back : List Event) :
    settings.transcript path (front ++ back) =
      settings.transcript path front ++ settings.transcript path back := by
  rw [transcript, List.filterMap_append, String.join_append, transcript, transcript]

theorem transcript_cons (event : Event) (events : List Event) :
    settings.transcript path (event :: events) =
      settings.transcript path [event] ++ settings.transcript path events :=
  settings.transcript_append path [event] events

end Log.Settings

namespace Run

namespace Session

variable {Disk : Type}

def note (session : Session Disk) (text : String) : Session Disk :=
  { session with errors := session.errors ++ text }

@[simp] theorem note_empty (session : Session Disk) : session.note "" = session := by
  rw [note, String.append_empty]

@[simp] theorem note_note (session : Session Disk) (first second : String) :
    (session.note first).note second = session.note (first ++ second) := by
  rw [note, note, note, String.append_assoc]

end Session

theorem run_bind_of_run {S A B : Type} {action : StateM S A} {next : A → StateM S B}
    {before after : S} {value : A} (hrun : action.run before = (value, after)) :
    (action >>= next).run before = (next value).run after := by
  rw [StateT.run_bind, hrun]
  rfl

section Log

variable {Disk A : Type} {path : Path} {value : A}

/-- Whatever the settings, an action comes to `value` and does nothing else than to log `events`. -/
def Logs (path : Path) (action : Settings → StateM (Session Disk) A) (value : A)
    (events : List Log.Event) : Prop :=
  ∀ settings session, (action settings).run session =
    (value, session.note (settings.log.transcript path events))

theorem Logs.pure : Logs path (fun _ => (pure value : StateM (Session Disk) A)) value [] := by
  intro settings session
  exact congrArg (Prod.mk value) session.note_empty.symm

variable [Files.Store Disk]

theorem run_logTo (settings : Settings) (path : Path) (event : Log.Event)
    (session : Session Disk) :
    (logTo Session.host settings (some path) event).run session =
      ((), session.note (settings.log.transcript path [event])) := by
  rw [logTo, Log.Settings.transcript, List.filterMap_cons, List.filterMap_nil]
  cases settings.log.render? (some path) event with
  | none => exact congrArg (Prod.mk ()) session.note_empty.symm
  | some line =>
      rw [String.join_cons, String.join_nil, String.append_empty]
      rfl

theorem Logs.log_bind {next : Settings → StateM (Session Disk) A} {events : List Log.Event}
    (event : Log.Event) (hnext : Logs path next value events) :
    Logs path (fun settings => logTo Session.host settings (some path) event >>= fun _ =>
      next settings) value (event :: events) := by
  intro settings session
  rw [run_bind_of_run (run_logTo settings path event session), hnext, Session.note_note,
    ← Log.Settings.transcript_cons]

theorem exists_logs_compileWith (Disk : Type) [Files.Store Disk] (path : Path) (options : Options)
    (arch : Asm.Arch) (source : Bytes) :
    ∃ events, Logs path (fun settings => (compileWith (logTo Session.host settings (some path))
      options arch source : StateM (Session Disk) _)) (compile options arch source) events := by
  unfold compile compileWith
  cases hmatching : Matching.ofTokens (Token.scan (!options.noComments) source) with
  | error error =>
      simp only [hmatching, pure_bind]
      exact ⟨_, .log_bind _ .pure⟩
  | ok matching =>
      cases htree : Block.ofTokens (Token.scan (!options.noComments) source) with
      | error error =>
          simp only [hmatching, htree, pure_bind]
          exact ⟨_, .log_bind _ (.log_bind _ .pure)⟩
      | ok tree =>
          cases hassemble : arch.assemble tree.foldRuns with
          | error error =>
              simp only [hmatching, htree, hassemble, pure_bind]
              exact ⟨_, .log_bind _ (.log_bind _ (.log_bind _ (.log_bind _ (.log_bind _ .pure))))⟩
          | ok listing =>
              simp only [hmatching, htree, hassemble, pure_bind]
              exact ⟨_, .log_bind _ (.log_bind _ (.log_bind _ (.log_bind _ (.log_bind _
                (.log_bind _ .pure)))))⟩

end Log

open Files (Store LawfulStore)

variable {Disk : Type}

/-- What some part of a run comes to: what it fails with, the files, and what it prints. -/
structure Ending (Disk E : Type) where
  error? : Option E
  files : Disk
  printed : String

namespace Ending

variable {E F : Type}

def map (change : E → F) (ending : Ending Disk E) : Ending Disk F :=
  ⟨ending.error?.map change, ending.files, ending.printed⟩

def result (ending : Ending Disk E) : Except E Unit :=
  ending.error?.elim (.ok ()) .error

def status (ending : Ending Disk E) : UInt32 :=
  if ending.error?.isSome then 1 else 0

def failed (error : E) (files : Disk) : Ending Disk E := ⟨some error, files, ""⟩

variable [LawfulStore Disk]

/-- The delivery of a text for a request. -/
def ofText (request : CommandLine.Request) (files : Disk) (outputFull : Bool)
    (text : String) : Ending Disk FileError :=
  match request.outputs with
  | [] =>
      if request.options.compileOnly then
        if outputFull then failed .standardOutput files else ⟨none, files, text⟩
      else ⟨none, files, ""⟩
  | outputs =>
      ⟨(outputs.find? (LawfulStore.refuses files)).map .store,
        LawfulStore.fill files (Bytes.ofString text) outputs, ""⟩

def ofSource (request : CommandLine.Request) (files : Disk) (outputFull : Bool)
    (source : Bytes) : Ending Disk Failure :=
  match compile request.options .host source with
  | .error error => failed (.compile error) files
  | .ok listing => (ofText request files outputFull listing.text).map .file

def ofRequest (request : CommandLine.Request) (files : Disk) (outputFull : Bool) :
    Ending Disk Failure :=
  match Store.load files request.input with
  | .error error => failed (.file (.load request.input error)) files
  | .ok source => ofSource request files outputFull source

section Cases

variable {request : CommandLine.Request} {files : Disk} {outputFull : Bool}

theorem ofText_outputs (houtputs : request.outputs ≠ []) (text : String) :
    ofText request files outputFull text =
      ⟨(request.outputs.find? (LawfulStore.refuses files)).map .store,
        LawfulStore.fill files (Bytes.ofString text) request.outputs, ""⟩ := by
  unfold ofText
  split
  · next hnil => exact absurd hnil houtputs
  · rfl

theorem error?_ofText_accepted (houtputs : request.outputs ≠ [])
    (haccepts : ∀ path ∈ request.outputs, LawfulStore.refuses files path = false)
    (text : String) : (ofText request files outputFull text).error? = none := by
  have hfind : request.outputs.find? (LawfulStore.refuses files) = none :=
    List.find?_eq_none.mpr fun path hmem => by simp [haccepts path hmem]
  rw [ofText_outputs houtputs, hfind, Option.map_none]

theorem error?_ofText_refused {written rest : List Path} {refused : Path}
    (houtputs : request.outputs = written ++ refused :: rest)
    (haccepts : ∀ path ∈ written, LawfulStore.refuses files path = false)
    (hrefuses : LawfulStore.refuses files refused = true) (text : String) :
    (ofText request files outputFull text).error? = some (.store refused) := by
  have hfind : request.outputs.find? (LawfulStore.refuses files) = some refused := by
    rw [houtputs, List.find?_append, List.find?_cons_of_pos hrefuses,
      List.find?_eq_none.mpr fun path hmem => by simp [haccepts path hmem], Option.none_or]
  rw [ofText_outputs (by simp [houtputs]), hfind, Option.map_some]

theorem files_ofText (houtputs : request.outputs = []) (text : String) :
    (ofText request files outputFull text).files = files := by
  simp only [ofText, houtputs]
  split
  · split <;> rfl
  · rfl

theorem ofText_printed (houtputs : request.outputs = [])
    (hcompileOnly : request.options.compileOnly = true) (text : String) :
    ofText request files outputFull text =
      if outputFull then failed .standardOutput files else ⟨none, files, text⟩ := by
  simp [ofText, houtputs, hcompileOnly]

theorem ofText_discarded (houtputs : request.outputs = [])
    (hcompileOnly : request.options.compileOnly = false) (text : String) :
    ofText request files outputFull text = ⟨none, files, ""⟩ := by
  simp [ofText, houtputs, hcompileOnly]

theorem ofRequest_unloaded {error : Files.LoadError}
    (hload : Store.load files request.input = .error error) :
    ofRequest request files outputFull = failed (.file (.load request.input error)) files := by
  rw [ofRequest, hload]

theorem ofRequest_uncompiled {source : Bytes} {error : CompileError}
    (hload : Store.load files request.input = .ok source)
    (hcompile : compile request.options .host source = .error error) :
    ofRequest request files outputFull = failed (.compile error) files := by
  rw [ofRequest, hload]
  simp only [ofSource, hcompile]

theorem ofRequest_compiled {source : Bytes} {listing : Asm.Listing}
    (hload : Store.load files request.input = .ok source)
    (hcompile : compile request.options .host source = .ok listing) :
    ofRequest request files outputFull =
      (ofText request files outputFull listing.text).map .file := by
  rw [ofRequest, hload]
  simp only [ofSource, hcompile]

end Cases

omit [LawfulStore Disk] in
theorem status_eq_one_iff (ending : Ending Disk E) :
    ending.status = 1 ↔ ending.error?.isSome := by
  unfold status
  cases ending.error? <;> simp

omit [LawfulStore Disk] in
theorem status_eq_zero_iff (ending : Ending Disk E) :
    ending.status = 0 ↔ ending.error?.isNone := by
  unfold status
  cases ending.error? <;> simp

/-- An action on some files comes to an ending and logs `events`, whatever the settings are and
whatever has been written before. -/
def IsOf (ending : Ending Disk E) (path : Path) (files : Disk) (outputFull : Bool)
    (action : Settings → StateM (Session Disk) (Except E Unit))
    (events : List Log.Event) : Prop :=
  ∀ settings output errors, (action settings).run ⟨files, outputFull, output, errors⟩ =
    (ending.result, ⟨ending.files, outputFull, output ++ ending.printed,
      errors ++ settings.log.transcript path events⟩)

end Ending

section Stages

variable [LawfulStore Disk] (path : Path) (request : CommandLine.Request) (files : Disk)
  (outputFull : Bool) {session : Session Disk}

theorem run_storeAll_accepted (settings : Settings) {first : Path} {bytes : Bytes} {next : Disk}
    (hstore : Store.store? session.files first bytes = some next) (rest : List Path) :
    (storeAll Session.host (logTo Session.host settings (some path)) bytes
        (first :: rest)).run session =
      (storeAll Session.host (logTo Session.host settings (some path)) bytes rest).run
        ({ session with files := next }.note (settings.log.transcript path [.stored first])) := by
  have hrun : (Session.host.store first bytes).run session =
      (true, { session with files := next }) := by
    change Session.store first bytes session = _
    rw [Session.store, hstore]
  rw [storeAll, run_bind_of_run hrun, if_pos rfl, run_bind_of_run (run_logTo ..)]

theorem run_storeAll_refused (settings : Settings) {first : Path} {bytes : Bytes}
    (hstore : Store.store? session.files first bytes = none) (rest : List Path) :
    (storeAll Session.host (logTo Session.host settings (some path)) bytes
        (first :: rest)).run session = (.error (.store first), session) := by
  have hrun : (Session.host.store first bytes).run session = (false, session) := by
    change Session.store first bytes session = _
    rw [Session.store, hstore]
  rw [storeAll, run_bind_of_run hrun, if_neg Bool.false_ne_true]
  rfl

theorem run_storeAll (settings : Settings) (bytes : Bytes) (paths : List Path) :
    (storeAll Session.host (logTo Session.host settings (some path)) bytes paths).run session =
      ((paths.find? (LawfulStore.refuses session.files)).elim (.ok ()) fun refused =>
          .error (.store refused),
        { session with files := LawfulStore.fill session.files bytes paths }.note
          (settings.log.transcript path
            ((LawfulStore.accepted session.files paths).map .stored))) := by
  induction paths generalizing session with
  | nil =>
      rw [LawfulStore.accepted_nil, LawfulStore.fill_nil, List.map_nil,
        Log.Settings.transcript_nil, Session.note_empty]
      rfl
  | cons first rest ih =>
      cases hrefuses : LawfulStore.refuses session.files first with
      | true =>
          rw [run_storeAll_refused path settings (LawfulStore.store?_eq_none_iff.mpr hrefuses),
            LawfulStore.accepted_refused hrefuses, List.find?_cons_of_pos hrefuses,
            LawfulStore.fill_refused bytes hrefuses, List.map_nil, Log.Settings.transcript_nil,
            Session.note_empty]
          rfl
      | false =>
          obtain ⟨next, hstore⟩ := LawfulStore.exists_store bytes hrefuses
          have hskip : ¬ LawfulStore.refuses session.files first = true := by simp [hrefuses]
          rw [LawfulStore.accepted_store hstore, List.find?_cons_of_neg hskip, List.map_cons,
            Log.Settings.transcript_cons settings.log path (.stored first) (List.map _ _),
            ← Session.note_note, LawfulStore.fill_store hstore,
            ← LawfulStore.refuses_store hstore, run_storeAll_accepted path settings hstore, ih]
          rfl

theorem exists_isOf_deliver (text : String) :
    ∃ events, (Ending.ofText request files outputFull text).IsOf path files outputFull
      (fun settings =>
        deliver Session.host (logTo Session.host settings (some path)) request text) events := by
  unfold deliver Ending.ofText
  cases request.outputs with
  | nil =>
      cases request.options.compileOnly with
      | true =>
          refine ⟨[], fun settings output errors => ?_⟩
          rw [Log.Settings.transcript_nil, String.append_empty]
          cases outputFull with
          | true =>
              exact congrArg (fun output => (_, Session.mk files true output errors))
                String.append_empty.symm
          | false => rfl
      | false =>
          refine ⟨[.discarded], fun settings output errors => ?_⟩
          simp only [Bool.false_eq_true, if_false]
          rw [run_bind_of_run (run_logTo ..)]
          exact congrArg (fun output => (_, Session.mk files outputFull output _))
            String.append_empty.symm
  | cons first rest =>
      refine ⟨(LawfulStore.accepted files (first :: rest)).map .stored,
        fun settings output errors => ?_⟩
      simp only [run_storeAll, String.append_empty, Ending.result, Session.note]
      cases (first :: rest).find? (LawfulStore.refuses files) <;> rfl

theorem exists_isOf_compileFile (source : Bytes) :
    ∃ events, (Ending.ofSource request files outputFull source).IsOf path files outputFull
      (fun settings => compileFile Session.host settings request ⟨path, source⟩) events := by
  obtain ⟨compiling, hcompiling⟩ :=
    exists_logs_compileWith Disk path request.options .host source
  cases hcompile : compile request.options .host source with
  | error error =>
      rw [hcompile] at hcompiling
      refine ⟨compiling, fun settings output errors => ?_⟩
      rw [Ending.ofSource, hcompile]
      refine (run_bind_of_run (hcompiling ..)).trans ?_
      exact congrArg (fun output => (_, Session.mk files outputFull output _))
        String.append_empty.symm
  | ok listing =>
      rw [hcompile] at hcompiling
      obtain ⟨delivering, hdelivering⟩ :=
        exists_isOf_deliver path request files outputFull listing.text
      refine ⟨compiling ++ delivering, fun settings output errors => ?_⟩
      rw [Ending.ofSource, hcompile, Log.Settings.transcript_append, ← String.append_assoc]
      refine (run_bind_of_run (hcompiling ..)).trans ?_
      refine (run_bind_of_run (hdelivering ..)).trans ?_
      simp only [Ending.result, Ending.map]
      cases (Ending.ofText request files outputFull listing.text).error? <;> rfl

/-- What standard error gets of a failure, if there is one. -/
def report (settings : Settings) (source? : Option Source) (failure? : Option Failure) : String :=
  failure?.elim "" fun failure => failure.diagnostic.render settings.styled source?

def input? (request : CommandLine.Request) (files : Disk) : Option Source :=
  (Store.load files request.input).toOption.map (Source.mk request.input)

theorem exists_run_eq {arguments : List Bytes}
    (hparse : CommandLine.parse arguments = .ok (.compile request)) :
    ∃ events, ∀ settings,
      let ending := Ending.ofRequest request files outputFull
      (run Session.host settings arguments).run (Session.start files outputFull) =
        (ending.status, ⟨ending.files, outputFull, ending.printed,
          settings.log.transcript request.input events ++
            report settings (input? request files) ending.error?⟩) := by
  have hload : (Session.host.load request.input).run (Session.start files outputFull) =
      (Store.load files request.input, Session.start files outputFull) := rfl
  unfold run Ending.ofRequest input?
  simp only [hparse]
  cases hinput : Store.load files request.input with
  | error error =>
      rw [hinput] at hload
      exact ⟨[], fun settings => run_bind_of_run hload⟩
  | ok source =>
      rw [hinput] at hload
      obtain ⟨events, hending⟩ :=
        exists_isOf_compileFile request.input request files outputFull source
      refine ⟨events, fun settings => (run_bind_of_run hload).trans ?_⟩
      refine (run_bind_of_run (hending settings "" "")).trans ?_
      simp only [Ending.result, Ending.status, report, String.empty_append]
      cases (Ending.ofSource request files outputFull source).error? with
      | none =>
          rw [Option.elim_none, Option.elim_none, String.append_empty]
          rfl
      | some failure => rfl

end Stages

/-- How a run ends: its status, what it fails with, and what it leaves behind. -/
structure Closing (Disk : Type) where
  status : UInt32
  failure? : Option Failure
  after : Session Disk

namespace Closing

/-- The run fails before anything is delivered. -/
structure Stopped (closing : Closing Disk) (files : Disk) (failure : Failure) : Prop where
  status_eq : closing.status = 1
  failure?_eq : closing.failure? = some failure
  files_eq : closing.after.files = files
  output_eq : closing.after.output = ""

/-- The text goes to standard output if that is asked for, and otherwise nowhere. -/
structure Printed (closing : Closing Disk) (files : Disk) (compileOnly outputFull : Bool)
    (text : String) : Prop where
  files_eq : closing.after.files = files
  taken : compileOnly = true → outputFull = false →
    closing.status = 0 ∧ closing.after.output = text
  untaken : compileOnly = true → outputFull = true →
    closing.status = 1 ∧ closing.failure? = some (.file .standardOutput) ∧
      closing.after.output = ""
  dropped : compileOnly = false → closing.status = 0 ∧ closing.after.output = ""

variable [LawfulStore Disk]

/-- The text goes to the output files, up to the first that refuses, and nowhere else. -/
structure Delivered (closing : Closing Disk) (files : Disk) (outputs : List Path)
    (text : String) : Prop where
  output_eq : closing.after.output = ""
  accepted : (∀ path ∈ outputs, LawfulStore.refuses files path = false) →
    closing.status = 0 ∧
      LawfulStore.Filled files closing.after.files outputs (Bytes.ofString text) ∧
      LawfulStore.Untouched files closing.after.files outputs
  refused : ∀ written refused rest, outputs = written ++ refused :: rest →
    (∀ path ∈ written, LawfulStore.refuses files path = false) →
    LawfulStore.refuses files refused = true →
    closing.status = 1 ∧ closing.failure? = some (.file (.store refused)) ∧
      LawfulStore.Filled files closing.after.files written (Bytes.ofString text) ∧
      LawfulStore.Untouched files closing.after.files (written ++ [refused])

/-- All that a request does. The text is that of the input as it was at the start. -/
structure Fulfils (closing : Closing Disk) (request : CommandLine.Request) (files : Disk)
    (outputFull : Bool) : Prop where
  loaded : ∀ source, Store.load files request.input = .ok source →
    LawfulStore.contents? files request.input = some source
  unloaded : ∀ error, Store.load files request.input = .error error →
    closing.Stopped files (.file (.load request.input error))
  uncompiled : ∀ source error, Store.load files request.input = .ok source →
    compile request.options .x64 source = .error error →
    closing.Stopped files (.compile error)
  delivered : ∀ source listing, Store.load files request.input = .ok source →
    compile request.options .x64 source = .ok listing → request.outputs ≠ [] →
    closing.Delivered files request.outputs listing.text
  printed : ∀ source listing, Store.load files request.input = .ok source →
    compile request.options .x64 source = .ok listing → request.outputs = [] →
    closing.Printed files request.options.compileOnly outputFull listing.text
  status_eq_one_iff : closing.status = 1 ↔ closing.failure?.isSome
  status_eq_zero_iff : closing.status = 0 ↔ closing.failure?.isNone

end Closing

namespace Ending

variable [LawfulStore Disk] {request : CommandLine.Request} {files : Disk} {outputFull : Bool}

/-- A run that comes to an ending. -/
def closing (ending : Ending Disk Failure) (outputFull : Bool) (errors : String) : Closing Disk :=
  ⟨ending.status, ending.error?, ⟨ending.files, outputFull, ending.printed, errors⟩⟩

theorem delivered_ofText (houtputs : request.outputs ≠ []) (text errors : String) :
    (((ofText request files outputFull text).map .file).closing outputFull errors).Delivered files
      request.outputs text := by
  have hfiles : (ofText request files outputFull text).files =
      LawfulStore.fill files (Bytes.ofString text) request.outputs := by
    rw [ofText_outputs houtputs]
  have hfilled := LawfulStore.filled_fill files (Bytes.ofString text) request.outputs
  have huntouched := LawfulStore.untouched_fill files (Bytes.ofString text) request.outputs
  rw [← hfiles] at hfilled huntouched
  refine ⟨?_, fun haccepts => ?_, fun written refused rest hsplit haccepts hrefuses => ?_⟩
  · rw [ofText_outputs houtputs]
    rfl
  · rw [LawfulStore.accepted_of_accepts haccepts] at hfilled huntouched
    refine ⟨?_, hfilled, huntouched⟩
    simp [closing, status, map, error?_ofText_accepted houtputs haccepts]
  · have haccepted : LawfulStore.accepted files request.outputs = written := by
      rw [hsplit, LawfulStore.accepted_append haccepts, LawfulStore.accepted_refused hrefuses,
        List.append_nil]
    rw [haccepted] at hfilled huntouched
    have herror : (ofText request files outputFull text).error? = some (.store refused) :=
      error?_ofText_refused hsplit haccepts hrefuses text
    refine ⟨?_, ?_, hfilled, huntouched.mono (List.subset_append_left ..)⟩
    · simp [closing, status, map, herror]
    · simp [closing, map, herror]

theorem printed_ofText (houtputs : request.outputs = []) (text errors : String) :
    (((ofText request files outputFull text).map .file).closing outputFull errors).Printed files
      request.options.compileOnly outputFull text := by
  refine ⟨files_ofText houtputs text, fun hcompileOnly hfull => ?_,
    fun hcompileOnly hfull => ?_, fun hcompileOnly => ?_⟩
  · rw [ofText_printed houtputs hcompileOnly, hfull]
    exact ⟨rfl, rfl⟩
  · rw [ofText_printed houtputs hcompileOnly, hfull]
    exact ⟨rfl, rfl, rfl⟩
  · rw [ofText_discarded houtputs hcompileOnly]
    exact ⟨rfl, rfl⟩

theorem fulfils_ofRequest (request : CommandLine.Request) (files : Disk) (outputFull : Bool)
    (errors : String) :
    ((ofRequest request files outputFull).closing outputFull errors).Fulfils request files
      outputFull := by
  constructor
  case loaded => exact fun source hload => LawfulStore.contents?_of_load hload
  case unloaded =>
    intro error hload
    rw [ofRequest_unloaded hload]
    exact ⟨rfl, rfl, rfl, rfl⟩
  case uncompiled =>
    intro source error hload hcompile
    rw [ofRequest_uncompiled hload hcompile]
    exact ⟨rfl, rfl, rfl, rfl⟩
  case delivered =>
    intro source listing hload hcompile houtputs
    rw [ofRequest_compiled hload hcompile]
    exact delivered_ofText houtputs listing.text errors
  case printed =>
    intro source listing hload hcompile houtputs
    rw [ofRequest_compiled hload hcompile]
    exact printed_ofText houtputs listing.text errors
  case status_eq_one_iff => exact Ending.status_eq_one_iff _
  case status_eq_zero_iff => exact Ending.status_eq_zero_iff _

end Ending

/-- What a run that is asked to compile leaves behind, on a shelf, in a tree or in any other store.
If the input cannot be loaded or compiled, nothing changes and nothing is printed. Otherwise the
text of the input, as it was at the start, fills the output files up to the first that refuses, and
no other file changes; without output files it is printed under `-S` and dropped otherwise. Standard
error gets the log, and behind it the diagnostic of the failure exactly if the status is one: which
events are logged and which failure it is does not depend on the settings. -/
theorem run_effects [LawfulStore Disk] {arguments : List Bytes} {request : CommandLine.Request}
    (hparse : CommandLine.parse arguments = .ok (.compile request)) (files : Disk)
    (outputFull : Bool) :
    ∃ (events : List Log.Event) (failure? : Option Failure), ∀ settings, ∃ status after,
      (run Session.host settings arguments).run (Session.start files outputFull) =
        (status, after) ∧
      Closing.Fulfils ⟨status, failure?, after⟩ request files outputFull ∧
      after.errors = settings.log.transcript request.input events ++
        report settings (input? request files) failure? := by
  obtain ⟨events, hrun⟩ := exists_run_eq request files outputFull hparse
  refine ⟨events, (Ending.ofRequest request files outputFull).error?, fun settings => ?_⟩
  exact ⟨_, _, hrun settings, Ending.fulfils_ofRequest request files outputFull _, rfl⟩

/-- The input `a` is the first output and `b`, the second, refuses: `bfc -S -oa -ob a` fails, but
`a` holds the text of the program that it held before. -/
theorem run_effects_overwritten_input :
    let files : Files.Shelf :=
      ⟨fun path => if path = [0x61] then some [0x2B] else if path = [0x63] then some [0x2D]
          else none, fun _ => none, fun path => path = [0x62]⟩
    let arguments : List Bytes :=
      [[0x62, 0x66, 0x63], [0x2D, 0x53], [0x2D, 0x6F, 0x61], [0x2D, 0x6F, 0x62], [0x61]]
    ∃ listing after, compile ⟨false, true⟩ .x64 [0x2B] = .ok listing ∧
      (run Session.host (.quiet false) arguments).run (Session.start files false) = (1, after) ∧
      after.files.contents [0x61] = some (Bytes.ofString listing.text) ∧
      after.files.contents [0x63] = some [0x2D] ∧ after.output = "" := by
  intro files arguments
  have hparse : CommandLine.parse arguments =
      .ok (.compile ⟨[0x61], [[0x61], [0x62]], ⟨false, true⟩⟩) := rfl
  have hcompile : ∃ listing, compile ⟨false, true⟩ .x64 [0x2B] = .ok listing := ⟨_, rfl⟩
  obtain ⟨listing, hcompile⟩ := hcompile
  obtain ⟨events, failure?, heffects⟩ := run_effects hparse files false
  obtain ⟨status, after, hrun, hfulfils, -⟩ := heffects (.quiet false)
  have hdelivered := hfulfils.delivered [0x2B] listing rfl hcompile (by decide)
  obtain ⟨rfl, -, hfilled, huntouched⟩ :=
    hdelivered.refused [[0x61]] [0x62] [] rfl (by decide) rfl
  exact ⟨listing, after, hcompile, hrun, Files.Shelf.filled_iff.mp hfilled _ (by decide),
    Files.Shelf.untouched_iff.mp huntouched _ (by decide), hdelivered.output_eq⟩

end Run

end Brainfuck
