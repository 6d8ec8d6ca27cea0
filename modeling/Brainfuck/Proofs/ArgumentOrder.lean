import Mathlib.Data.List.Induction
import Mathlib.Data.List.Nodup
import Mathlib.Data.List.Perm.Basic
import Brainfuck.CommandLine

/-! The order of the arguments.

A command line consists of segments: the input, an output behind its `-o`, a switch. Each of them
can be met while the value of the one in front of it is still pending. Whatever is pending, what the
segments so far come to is known: it is `Progress.known`, which counts their order only among the
outputs. -/

namespace Brainfuck.CommandLine

/-! Segments. -/

inductive Segment where
  | input (path : Path)
  | output (path : Path)
  | switch (chosen : Switch)
deriving DecidableEq, Repr

namespace Segment

def arguments : Segment → List Bytes
  | .input path => [path]
  | .output path => [Bytes.ofString "-o", path]
  | .switch chosen => [Bytes.ofString chosen.label]

def input? : Segment → Option Path
  | .input path => some path
  | _ => none

def output? : Segment → Option Path
  | .output path => some path
  | _ => none

def switch? : Segment → Option Switch
  | .switch chosen => some chosen
  | _ => none

end Segment

/-- A path that is there and is not taken for an option. -/
def IsPlain (path : Path) : Prop :=
  path ≠ [] ∧ path.head? ≠ some Bytes.dash

instance (path : Path) : Decidable (IsPlain path) :=
  inferInstanceAs (Decidable (_ ∧ _))

def Segment.IsPlain : Segment → Prop
  | .input path => CommandLine.IsPlain path
  | .output path => CommandLine.IsPlain path
  | .switch _ => True

/-- Segments that can stand on one command line, whether or not an input is among them yet. -/
structure Proper (segments : List Segment) : Prop where
  plain : ∀ segment ∈ segments, segment.IsPlain
  inputs : (segments.filterMap Segment.input?).length ≤ 1
  switches : (segments.filterMap Segment.switch?).Nodup

theorem Proper.front {front : List Segment} {segment : Segment}
    (hproper : Proper (front ++ [segment])) : Proper front where
  plain := fun other hother => hproper.plain other (List.mem_append_left _ hother)
  inputs := by
    have hinputs := hproper.inputs
    rw [List.filterMap_append, List.length_append] at hinputs
    exact Nat.le_trans (Nat.le_add_right _ _) hinputs
  switches := by
    have hswitches := hproper.switches
    rw [List.filterMap_append] at hswitches
    exact hswitches.of_append_left

namespace Progress

/-! A pending value, and what is known once it is settled. -/

section Resolve

variable {progress settled : Progress}

theorem resolve_cases (hresolve : progress.resolve = .ok settled) :
    (progress.pending = none ∧ settled = progress) ∨
    (∃ value, progress.pending = some (.input, some value) ∧
      settled = { progress with pending := none, input? := some value }) ∨
    ∃ value, progress.pending = some (.output, some value) ∧
      settled = { progress with pending := none, outputs := value :: progress.outputs } := by
  unfold resolve at hresolve
  split at hresolve
  · next hpending =>
      cases hresolve
      exact .inl ⟨hpending, rfl⟩
  · next slot value? hpending =>
      rw [hpending]
      cases value? with
      | none => cases hresolve
      | some value =>
          cases value with
          | nil => cases hresolve
          | cons byte rest =>
              cases slot with
              | input =>
                  cases hresolve
                  exact .inr (.inl ⟨_, rfl, rfl⟩)
              | output =>
                  cases hresolve
                  exact .inr (.inr ⟨_, rfl, rfl⟩)

theorem onlyInputs_of_resolve (hresolve : progress.resolve = .ok settled) :
    progress.onlyInputs = settled.onlyInputs := by
  obtain ⟨-, rfl⟩ | ⟨_, -, rfl⟩ | ⟨_, -, rfl⟩ := resolve_cases hresolve <;> rfl

theorem pending_of_resolve (hresolve : progress.resolve = .ok settled) :
    settled.pending = none := by
  obtain ⟨hpending, rfl⟩ | ⟨_, -, rfl⟩ | ⟨_, -, rfl⟩ := resolve_cases hresolve
  · exact hpending
  · rfl
  · rfl

theorem hasInput_of_resolve (hresolve : progress.resolve = .ok settled) :
    progress.hasInput = settled.input?.isSome := by
  obtain ⟨hpending, rfl⟩ | ⟨_, hpending, rfl⟩ | ⟨_, hpending, rfl⟩ := resolve_cases hresolve <;>
    simp [hasInput, hpending]

theorem value_of_resolve (hresolve : progress.resolve = .ok settled) (argument : Bytes) :
    progress.value argument = progress.inputValue argument := by
  obtain ⟨hpending, -⟩ | ⟨_, hpending, -⟩ | ⟨_, hpending, -⟩ := resolve_cases hresolve <;>
    rw [value, hpending]

theorem resolve_settled (hpending : settled.pending = none) : settled.resolve = .ok settled := by
  rw [resolve, hpending]

theorem resolve_pending {value : Bytes} (hvalue : value ≠ []) (slot : Slot) :
    resolve { settled with pending := some (slot, some value) } =
      .ok (match slot with
        | .input => { settled with pending := none, input? := some value }
        | .output => { settled with pending := none, outputs := value :: settled.outputs }) := by
  obtain ⟨byte, rest, rfl⟩ := List.exists_cons_of_ne_nil hvalue
  cases slot <;> rfl

end Resolve

/-! One segment. -/

theorem step_plain {progress : Progress} (hopen : progress.onlyInputs = false) {path : Path}
    (hplain : IsPlain path) : progress.step path = progress.value path := by
  unfold step
  rw [hopen, if_neg Bool.false_ne_true]
  split
  · next first second rest =>
      rw [if_neg]
      intro hfirst
      exact hplain.2 (congrArg some hfirst)
  · rfl

def record (settled : Progress) : Segment → Progress
  | .input path => { settled with input? := some path }
  | .output path => { settled with outputs := path :: settled.outputs }
  | .switch .compileOnly =>
      { settled with options := { settled.options with compileOnly := true } }
  | .switch .noComments =>
      { settled with options := { settled.options with noComments := true } }

/-- A segment that can still be met: no second input, and no switch a second time. -/
def Awaits (settled : Progress) : Segment → Prop
  | .input path => IsPlain path ∧ settled.input? = none
  | .output path => IsPlain path
  | .switch .compileOnly => settled.options.compileOnly = false
  | .switch .noComments => settled.options.noComments = false

section Segment

variable {progress settled : Progress}

theorem switchOn_of_awaits {chosen : Switch} (hawaits : settled.Awaits (.switch chosen)) :
    settled.switchOn chosen = .ok (settled.record (.switch chosen)) := by
  cases chosen with
  | compileOnly =>
      unfold Awaits at hawaits
      rw [switchOn, hawaits]
      rfl
  | noComments =>
      unfold Awaits at hawaits
      rw [switchOn, hawaits]
      rfl

theorem step_switch {chosen : Switch} (hresolve : progress.resolve = .ok settled)
    (hopen : settled.onlyInputs = false) (hawaits : settled.Awaits (.switch chosen)) :
    progress.step (Bytes.ofString chosen.label) = .ok (settled.record (.switch chosen)) := by
  rw [← onlyInputs_of_resolve hresolve] at hopen
  unfold step
  rw [hopen, if_neg Bool.false_ne_true]
  cases chosen with
  | compileOnly =>
      change (progress.resolve >>= fun settled =>
        settled.switchOn .compileOnly >>= fun settled => settled.letters []) = _
      rw [hresolve]
      change (settled.switchOn .compileOnly >>= fun settled => settled.letters []) = _
      rw [switchOn_of_awaits hawaits]
      rfl
  | noComments =>
      change (progress.resolve >>= fun settled => settled.switchOn .noComments) = _
      rw [hresolve]
      exact switchOn_of_awaits hawaits

theorem step_output (hresolve : progress.resolve = .ok settled)
    (hopen : settled.onlyInputs = false) :
    progress.step (Bytes.ofString "-o") = .ok { settled with pending := some (.output, none) } := by
  rw [← onlyInputs_of_resolve hresolve] at hopen
  unfold step
  rw [hopen, if_neg Bool.false_ne_true]
  change (progress.resolve >>= fun settled => settled.outputValue []) = _
  rw [hresolve]
  rfl

theorem foldlM_of_step {next : Progress} {argument : Bytes}
    (hstep : progress.step argument = .ok next) (rest : List Bytes) :
    (argument :: rest).foldlM step progress = rest.foldlM step next := by
  rw [List.foldlM_cons, hstep]
  rfl

/-- Whatever is pending in front of a segment, behind it is known what was known before, and the
segment. -/
theorem exists_foldlM_arguments {segment : Segment} (hresolve : progress.resolve = .ok settled)
    (hopen : settled.onlyInputs = false) (hawaits : settled.Awaits segment) :
    ∃ next, segment.arguments.foldlM step progress = .ok next ∧
      next.resolve = .ok (settled.record segment) := by
  have hpending := pending_of_resolve hresolve
  cases segment with
  | input path =>
      obtain ⟨hplain, hnone⟩ := hawaits
      have hinput : progress.hasInput = false := by
        rw [hasInput_of_resolve hresolve, hnone]
        rfl
      have hstep : progress.step path =
          .ok { settled with pending := some (.input, some path) } := by
        rw [step_plain ((onlyInputs_of_resolve hresolve).trans hopen) hplain,
          value_of_resolve hresolve, inputValue, hinput, hresolve]
        rfl
      refine ⟨_, foldlM_of_step hstep [], ?_⟩
      rw [resolve_pending hplain.1, ← hpending]
      rfl
  | output path =>
      have hplain : IsPlain path := hawaits
      have hstep : step { settled with pending := some (.output, none) } path =
          .ok { settled with pending := some (.output, some path) } := by
        rw [step_plain (by exact hopen) hplain]
        rfl
      refine ⟨_, (foldlM_of_step (step_output hresolve hopen) _).trans
        (foldlM_of_step hstep []), ?_⟩
      rw [resolve_pending hplain.1, ← hpending]
      rfl
  | switch chosen =>
      refine ⟨_, foldlM_of_step (step_switch hresolve hopen hawaits) [], resolve_settled ?_⟩
      cases chosen <;> exact hpending

end Segment

/-! All segments. -/

/-- What some segments come to. -/
def known (segments : List Segment) : Progress where
  onlyInputs := false
  pending := none
  input? := (segments.filterMap Segment.input?).getLast?
  outputs := (segments.filterMap Segment.output?).reverse
  options :=
    ⟨decide (.noComments ∈ segments.filterMap Segment.switch?),
      decide (.compileOnly ∈ segments.filterMap Segment.switch?)⟩

theorem known_append (front : List Segment) (segment : Segment) :
    known (front ++ [segment]) = (known front).record segment := by
  cases segment with
  | input path => simp [known, record, Segment.input?, Segment.output?, Segment.switch?]
  | output path => simp [known, record, Segment.input?, Segment.output?, Segment.switch?]
  | switch chosen =>
      cases chosen <;> simp [known, record, Segment.input?, Segment.output?, Segment.switch?]

theorem awaits_of_proper {front : List Segment} {segment : Segment}
    (hproper : Proper (front ++ [segment])) : (known front).Awaits segment := by
  have hplain : segment.IsPlain := hproper.plain segment (by simp)
  have hinputs := hproper.inputs
  have hswitches := hproper.switches
  rw [List.filterMap_append] at hinputs hswitches
  cases segment with
  | input path =>
      refine ⟨hplain, ?_⟩
      have hnone : front.filterMap Segment.input? = [] := by
        simpa [Segment.input?] using hinputs
      rw [known, hnone]
      rfl
  | output path => exact hplain
  | switch chosen =>
      have hfresh : chosen ∉ front.filterMap Segment.switch? := by
        intro hmem
        exact List.disjoint_of_nodup_append hswitches hmem (by simp [Segment.switch?])
      cases chosen <;> exact decide_eq_false hfresh

theorem exists_foldlM_segments {segments : List Segment} (hproper : Proper segments) :
    ∃ progress, (segments.flatMap Segment.arguments).foldlM step start = .ok progress ∧
      progress.resolve = .ok (known segments) := by
  induction segments using List.reverseRecOn with
  | nil => exact ⟨start, rfl, rfl⟩
  | append_singleton front segment ih =>
      obtain ⟨progress, hfront, hresolve⟩ := ih hproper.front
      obtain ⟨next, hnext, hknown⟩ :=
        exists_foldlM_arguments hresolve rfl (awaits_of_proper hproper)
      refine ⟨next, ?_, hknown.trans (congrArg _ (known_append front segment).symm)⟩
      rw [List.flatMap_append, List.foldlM_append, hfront, List.flatMap_singleton]
      exact hnext

end Progress

/-! Requests. -/

def switchesOf (options : Options) : List Switch :=
  (if options.compileOnly then [.compileOnly] else []) ++
    (if options.noComments then [.noComments] else [])

theorem mem_switchesOf {options : Options} :
    (.compileOnly ∈ switchesOf options ↔ options.compileOnly = true) ∧
      (.noComments ∈ switchesOf options ↔ options.noComments = true) := by
  obtain ⟨noComments, compileOnly⟩ := options
  cases noComments <;> cases compileOnly <;> decide

theorem nodup_switchesOf (options : Options) : (switchesOf options).Nodup := by
  obtain ⟨noComments, compileOnly⟩ := options
  cases noComments <;> cases compileOnly <;> decide

/-- Segments of another kind are passed over. -/
theorem Segment.filterMap_map_eq_nil {A B : Type} {segment : A → Segment}
    {find? : Segment → Option B} (hnone : ∀ item, find? (segment item) = none) (items : List A) :
    (items.map segment).filterMap find? = [] := by
  rw [List.filterMap_map]
  exact List.filterMap_eq_nil_iff.mpr fun item _ => hnone item

namespace Request

/-- The segments that ask for a request. -/
def segments (request : Request) : List Segment :=
  .input request.input ::
    (request.outputs.map .output ++ (switchesOf request.options).map .switch)

variable (request : Request)

theorem filterMap_input : request.segments.filterMap Segment.input? = [request.input] := by
  have hfirst : (Segment.input request.input).input? = some request.input := rfl
  rw [segments, List.filterMap_cons_some hfirst, List.filterMap_append,
    Segment.filterMap_map_eq_nil fun _ => rfl, Segment.filterMap_map_eq_nil fun _ => rfl]
  rfl

theorem filterMap_switch :
    request.segments.filterMap Segment.switch? = switchesOf request.options := by
  rw [segments, List.filterMap_cons_none rfl, List.filterMap_append,
    Segment.filterMap_map_eq_nil fun _ => rfl, List.filterMap_map]
  exact List.filterMap_some

end Request

section Interleaving

variable {request : Request} {segments : List Segment}

theorem proper_of_perm (hinput : IsPlain request.input)
    (houtputs : ∀ path ∈ request.outputs, IsPlain path)
    (hperm : segments.Perm request.segments) : Proper segments where
  plain := by
    intro segment hsegment
    have hmem := hperm.mem_iff.mp hsegment
    simp only [Request.segments, List.mem_cons, List.mem_append, List.mem_map] at hmem
    rcases hmem with rfl | ⟨path, hpath, rfl⟩ | ⟨chosen, -, rfl⟩
    · exact hinput
    · exact houtputs path hpath
    · trivial
  inputs := by
    rw [(hperm.filterMap Segment.input?).length_eq, request.filterMap_input]
    exact Nat.le_refl 1
  switches := by
    rw [(hperm.filterMap Segment.switch?).nodup_iff, request.filterMap_switch]
    exact nodup_switchesOf request.options

theorem known_of_perm (hperm : segments.Perm request.segments)
    (horder : segments.filterMap Segment.output? = request.outputs) :
    Progress.known segments =
      ⟨false, none, some request.input, request.outputs.reverse, request.options⟩ := by
  have hinputs := hperm.filterMap Segment.input?
  have hswitches := hperm.filterMap Segment.switch?
  rw [request.filterMap_input, List.perm_singleton] at hinputs
  rw [request.filterMap_switch] at hswitches
  simp [Progress.known, hinputs, horder, hswitches.mem_iff, mem_switchesOf]

/-- A request comes out whatever the order in which its input, its outputs and its switches are
given, if only the outputs keep theirs. -/
theorem parse_interleaved (hinput : IsPlain request.input)
    (houtputs : ∀ path ∈ request.outputs, IsPlain path)
    (hperm : segments.Perm request.segments)
    (horder : segments.filterMap Segment.output? = request.outputs) (program : Bytes) :
    parse (program :: segments.flatMap Segment.arguments) = .ok (.compile request) := by
  obtain ⟨progress, hfold, hresolve⟩ :=
    Progress.exists_foldlM_segments (proper_of_perm hinput houtputs hperm)
  have hfinish : progress.finish = .ok request := by
    rw [Progress.finish, hresolve, known_of_perm hperm horder]
    change Except.ok (Request.mk _ request.outputs.reverse.reverse _) = _
    rw [List.reverse_reverse]
  have hrun : (segments.flatMap Segment.arguments).foldlM Progress.step .start >>=
      Progress.finish = .ok request := by
    rw [hfold]
    exact hfinish
  rw [parse, List.drop_one, List.tail_cons, hrun]

/-- Both switches and two outputs, with the input between them. -/
theorem parse_interleaved_both_switches :
    let request : Request :=
      ⟨.ofString "x.bf", [.ofString "a.s", .ofString "b.s"], ⟨true, true⟩⟩
    let segments : List Segment :=
      [.output (.ofString "a.s"), .switch .noComments, .input (.ofString "x.bf"),
        .switch .compileOnly, .output (.ofString "b.s")]
    segments.flatMap Segment.arguments =
        ["-o", "a.s", "--fno-comments", "x.bf", "-S", "-o", "b.s"].map Bytes.ofString ∧
      parse (.ofString "bfc" :: segments.flatMap Segment.arguments) = .ok (.compile request) := by
  intro request segments
  have hperm : segments.Perm request.segments := by decide
  exact ⟨rfl, parse_interleaved (by decide) (by decide) hperm rfl _⟩

end Interleaving

end Brainfuck.CommandLine
