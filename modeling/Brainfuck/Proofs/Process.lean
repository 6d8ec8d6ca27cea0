import Brainfuck.Bytes

/-! Deterministic processes that write bytes.

A step leads to a next state or stops with a result. A run is seen from outside through the result
it stops with, if it ever does, and through the sequence of bytes it writes, which may be endless.
`Agrees` compares two runs by these alone; `Simulation` is the step-by-step argument for it. -/

namespace Brainfuck

universe u v

inductive Turn (State : Type u) (Result : Type v) where
  | next (state : State)
  | stop (result : Result)

structure Process (State : Type u) (Result : Type v) where
  step : State → Turn State Result
  /-- All that has been written before a state. -/
  output : State → Bytes
  output_step : ∀ {state next}, step state = .next next → output state <+: output next

namespace Process

variable {State : Type u} {Result : Type v}

/-- Where a run stands after `count` steps, or the result with which it has stopped by then. -/
def after (process : Process State Result) : Nat → State → Turn State Result
  | 0, state => .next state
  | count + 1, state =>
      match process.step state with
      | .next next => process.after count next
      | .stop result => .stop result

def Reaches (process : Process State Result) (start state : State) : Prop :=
  ∃ count, process.after count start = .next state

def Ends (process : Process State Result) (start : State) (result : Result) : Prop :=
  ∃ count, process.after count start = .stop result

/-- The byte that a run writes as number `index`, counted from zero. -/
def Emits (process : Process State Result) (start : State) (index : Nat) (byte : UInt8) : Prop :=
  ∃ state, process.Reaches start state ∧ (process.output state)[index]? = some byte

def Always (process : Process State Result) (property : State → Prop) (start : State) : Prop :=
  ∀ state, process.Reaches start state → property state

section Run

variable {process : Process State Result}

theorem after_succ_next {state next : State} (hstep : process.step state = .next next)
    (count : Nat) : process.after (count + 1) state = process.after count next := by
  rw [after, hstep]

theorem after_succ_stop {state : State} {result : Result}
    (hstep : process.step state = .stop result) (count : Nat) :
    process.after (count + 1) state = .stop result := by
  rw [after, hstep]

theorem after_add {start middle : State} {first : Nat}
    (hfirst : process.after first start = .next middle) (second : Nat) :
    process.after (first + second) start = process.after second middle := by
  induction first generalizing start with
  | zero =>
      cases hfirst
      rw [Nat.zero_add]
  | succ first ih =>
      cases hstep : process.step start with
      | next next =>
          rw [after_succ_next hstep] at hfirst
          rw [Nat.succ_add, after_succ_next hstep, ih hfirst]
      | stop result =>
          rw [after_succ_stop hstep] at hfirst
          contradiction

theorem after_stop_of_le {start : State} {result : Result} {first second : Nat}
    (hstop : process.after first start = .stop result) (hle : first ≤ second) :
    process.after second start = .stop result := by
  induction first generalizing start second with
  | zero => cases hstop
  | succ first ih =>
      obtain ⟨second, rfl⟩ : ∃ count, second = count + 1 := ⟨second - 1, by omega⟩
      cases hstep : process.step start with
      | next next =>
          rw [after_succ_next hstep] at hstop ⊢
          exact ih hstop (by omega)
      | stop other =>
          rw [after_succ_stop hstep] at hstop ⊢
          exact hstop

theorem after_between {start early late : State} {first second : Nat}
    (hfirst : process.after first start = .next early)
    (hsecond : process.after second start = .next late) (hle : first ≤ second) :
    process.after (second - first) early = .next late := by
  rw [← after_add hfirst, Nat.add_sub_cancel' hle, hsecond]

theorem output_after {start state : State} {count : Nat}
    (hafter : process.after count start = .next state) :
    process.output start <+: process.output state := by
  induction count generalizing start with
  | zero =>
      cases hafter
      exact List.prefix_refl _
  | succ count ih =>
      cases hstep : process.step start with
      | next next =>
          rw [after_succ_next hstep] at hafter
          exact (process.output_step hstep).trans (ih hafter)
      | stop result =>
          rw [after_succ_stop hstep] at hafter
          contradiction

namespace Reaches

theorem refl (state : State) : process.Reaches state state :=
  ⟨0, rfl⟩

theorem trans {start middle state : State} (hfirst : process.Reaches start middle)
    (hsecond : process.Reaches middle state) : process.Reaches start state := by
  obtain ⟨first, hfirst⟩ := hfirst
  obtain ⟨second, hsecond⟩ := hsecond
  exact ⟨first + second, (after_add hfirst second).trans hsecond⟩

theorem head {start next state : State} (hstep : process.step start = .next next)
    (hrest : process.Reaches next state) : process.Reaches start state := by
  obtain ⟨count, hrest⟩ := hrest
  exact ⟨count + 1, (after_succ_next hstep count).trans hrest⟩

theorem single {start next : State} (hstep : process.step start = .next next) :
    process.Reaches start next :=
  head hstep (refl next)

theorem ends {start state : State} {result : Result} (hreaches : process.Reaches start state)
    (hends : process.Ends state result) : process.Ends start result := by
  obtain ⟨first, hfirst⟩ := hreaches
  obtain ⟨second, hsecond⟩ := hends
  exact ⟨first + second, (after_add hfirst second).trans hsecond⟩

end Reaches

theorem Ends.of_stop {state : State} {result : Result}
    (hstep : process.step state = .stop result) : process.Ends state result :=
  ⟨1, after_succ_stop hstep 0⟩

theorem Ends.exists_stop {start : State} {result : Result}
    (hends : process.Ends start result) :
    ∃ state, process.Reaches start state ∧ process.step state = .stop result := by
  obtain ⟨count, hends⟩ := hends
  induction count generalizing start with
  | zero => cases hends
  | succ count ih =>
      cases hstep : process.step start with
      | next next =>
          rw [after_succ_next hstep] at hends
          obtain ⟨state, hreaches, hstop⟩ := ih hends
          exact ⟨state, hreaches.head hstep, hstop⟩
      | stop other =>
          rw [after_succ_stop hstep] at hends
          cases hends
          exact ⟨start, .refl start, hstep⟩

theorem Ends.unique {start : State} {first second : Result}
    (hfirst : process.Ends start first) (hsecond : process.Ends start second) :
    first = second := by
  obtain ⟨early, hfirst⟩ := hfirst
  obtain ⟨late, hsecond⟩ := hsecond
  have hearly := after_stop_of_le hfirst (Nat.le_max_left early late)
  have hlate := after_stop_of_le hsecond (Nat.le_max_right early late)
  rw [hearly] at hlate
  cases hlate
  rfl

theorem Emits.of_initial {start state : State} {written : Bytes} {index : Nat} {byte : UInt8}
    (hreaches : process.Reaches start state) (hinitial : written <+: process.output state)
    (hbyte : written[index]? = some byte) : process.Emits start index byte := by
  obtain ⟨rest, hrest⟩ := hinitial
  refine ⟨state, hreaches, ?_⟩
  obtain ⟨hbound, hget⟩ := List.getElem?_eq_some_iff.mp hbyte
  rw [← hrest, List.getElem?_append_left hbound, hbyte]

theorem Always.here {property : State → Prop} {start : State}
    (halways : process.Always property start) : property start :=
  halways start (.refl start)

theorem Always.of_next {property : State → Prop} {start next : State}
    (hstep : process.step start = .next next) (hhere : property start)
    (hnext : process.Always property next) : process.Always property start := by
  intro state hreaches
  obtain ⟨count, hafter⟩ := hreaches
  cases count with
  | zero =>
      cases hafter
      exact hhere
  | succ count =>
      rw [after_succ_next hstep] at hafter
      exact hnext state ⟨count, hafter⟩

theorem Always.of_stop {property : State → Prop} {start : State} {result : Result}
    (hstep : process.step start = .stop result) (hhere : property start) :
    process.Always property start := by
  intro state hreaches
  obtain ⟨count, hafter⟩ := hreaches
  cases count with
  | zero =>
      cases hafter
      exact hhere
  | succ count =>
      rw [after_succ_stop hstep] at hafter
      contradiction

theorem Always.of_reaches {property : State → Prop} {start state : State}
    (halways : process.Always property start) (hreaches : process.Reaches start state) :
    process.Always property state :=
  fun later hlater => halways later (hreaches.trans hlater)

end Run

variable {State' : Type u} {Result' : Type v} {State'' : Type u} {Result'' : Type v}

/-- Two runs look the same from outside: if one stops then so does the other, with a related
result, and both write the same sequence of bytes, whether they stop or not. -/
structure Agrees (first : Process State Result) (second : Process State' Result')
    (related : Result → Result' → Prop) (start : State) (start' : State') : Prop where
  ends : ∀ {result}, first.Ends start result →
    ∃ result', second.Ends start' result' ∧ related result result'
  ends_back : ∀ {result'}, second.Ends start' result' →
    ∃ result, first.Ends start result ∧ related result result'
  emits : ∀ index byte, first.Emits start index byte ↔ second.Emits start' index byte

namespace Agrees

variable {first : Process State Result} {second : Process State' Result'}
  {third : Process State'' Result''} {related : Result → Result' → Prop}
  {related' : Result' → Result'' → Prop} {start : State} {start' : State'} {start'' : State''}

theorem symm (hagrees : first.Agrees second related start start') :
    second.Agrees first (fun result' result => related result result') start' start where
  ends := hagrees.ends_back
  ends_back := hagrees.ends
  emits := fun index byte => (hagrees.emits index byte).symm

theorem trans (hfirst : first.Agrees second related start start')
    (hsecond : second.Agrees third related' start' start'') :
    first.Agrees third
      (fun result result'' => ∃ result', related result result' ∧ related' result' result'')
      start start'' where
  ends := by
    intro result hends
    obtain ⟨result', hends', hrelated⟩ := hfirst.ends hends
    obtain ⟨result'', hends'', hrelated'⟩ := hsecond.ends hends'
    exact ⟨result'', hends'', result', hrelated, hrelated'⟩
  ends_back := by
    intro result'' hends''
    obtain ⟨result', hends', hrelated'⟩ := hsecond.ends_back hends''
    obtain ⟨result, hends, hrelated⟩ := hfirst.ends_back hends'
    exact ⟨result, hends, result', hrelated, hrelated'⟩
  emits := fun index byte => (hfirst.emits index byte).trans (hsecond.emits index byte)

theorem mono {weaker : Result → Result' → Prop}
    (hagrees : first.Agrees second related start start')
    (hweaker : ∀ result result', related result result' → weaker result result') :
    first.Agrees second weaker start start' where
  ends := by
    intro result hends
    obtain ⟨result', hends', hrelated⟩ := hagrees.ends hends
    exact ⟨result', hends', hweaker result result' hrelated⟩
  ends_back := by
    intro result' hends'
    obtain ⟨result, hends, hrelated⟩ := hagrees.ends_back hends'
    exact ⟨result, hends, hweaker result result' hrelated⟩
  emits := hagrees.emits

end Agrees

/-! A run looks the same from a state that it comes to. -/

theorem Reaches.ends_iff {process : Process State Result} {start state : State} {result : Result}
    (hreaches : process.Reaches start state) :
    process.Ends start result ↔ process.Ends state result := by
  constructor
  · intro hends
    obtain ⟨first, hfirst⟩ := hreaches
    obtain ⟨count, hcount⟩ := hends
    have hlate : process.after (first + count) start = .stop result :=
      after_stop_of_le hcount (Nat.le_add_left count first)
    exact ⟨count, (after_add hfirst count).symm.trans hlate⟩
  · exact hreaches.ends

theorem Reaches.emits_iff {process : Process State Result} {start state : State} {index : Nat}
    {byte : UInt8} (hreaches : process.Reaches start state) :
    process.Emits start index byte ↔ process.Emits state index byte := by
  constructor
  · intro hemits
    obtain ⟨first, hfirst⟩ := hreaches
    obtain ⟨written, ⟨count, hcount⟩, hbyte⟩ := hemits
    rcases Nat.le_total first count with hle | hle
    · exact ⟨written, ⟨count - first, after_between hfirst hcount hle⟩, hbyte⟩
    · exact .of_initial (.refl state) (output_after (after_between hcount hfirst hle)) hbyte
  · intro hemits
    obtain ⟨written, hlater, hbyte⟩ := hemits
    exact ⟨written, hreaches.trans hlater, hbyte⟩

theorem Agrees.of_reaches {first : Process State Result} {second : Process State' Result'}
    {related : Result → Result' → Prop} {start : State} {start' state' : State'}
    (hreaches : second.Reaches start' state')
    (hagrees : first.Agrees second related start state') :
    first.Agrees second related start start' where
  ends := by
    intro result hends
    obtain ⟨result', hends', hrelated⟩ := hagrees.ends hends
    exact ⟨result', hreaches.ends_iff.mpr hends', hrelated⟩
  ends_back := fun hends' => hagrees.ends_back (hreaches.ends_iff.mp hends')
  emits := fun index byte => (hagrees.emits index byte).trans hreaches.emits_iff.symm

end Process

/-! A simulation follows every step of the source by some steps of the target. Where it takes none,
a measure of the source goes down, so that the target cannot wait for ever. -/

structure Simulation {State State' : Type u} {Result Result' : Type v}
    (source : Process State Result) (target : Process State' Result')
    (Matches : State → State' → Prop) (related : Result → Result' → Prop)
    (measure : State → Nat) : Prop where
  output : ∀ {state image}, Matches state image → source.output state = target.output image
  next : ∀ {state image state'}, Matches state image → source.step state = .next state' →
    ∃ count image', target.after count image = .next image' ∧ Matches state' image' ∧
      (count = 0 → measure state' < measure state)
  stop : ∀ {state image result}, Matches state image → source.step state = .stop result →
    ∃ last result', target.Reaches image last ∧ target.output last = target.output image ∧
      target.step last = .stop result' ∧ related result result'

namespace Simulation

open Process

variable {State State' : Type u} {Result Result' : Type v}
  {source : Process State Result} {target : Process State' Result'}
  {Matches : State → State' → Prop} {related : Result → Result' → Prop} {measure : State → Nat}

theorem reaches (simulation : Simulation source target Matches related measure)
    {start state : State} {image : State'} (hmatches : Matches start image)
    (hreaches : source.Reaches start state) :
    ∃ image', target.Reaches image image' ∧ Matches state image' := by
  obtain ⟨count, hafter⟩ := hreaches
  induction count generalizing start image with
  | zero =>
      cases hafter
      exact ⟨image, .refl image, hmatches⟩
  | succ count ih =>
      cases hstep : source.step start with
      | next next =>
          rw [after_succ_next hstep] at hafter
          obtain ⟨steps, image', himage, hmatches', -⟩ := simulation.next hmatches hstep
          obtain ⟨image'', hreaches, hmatches''⟩ := ih hmatches' hafter
          exact ⟨image'', .trans ⟨steps, himage⟩ hreaches, hmatches''⟩
      | stop result =>
          rw [after_succ_stop hstep] at hafter
          contradiction

/-- The source gets far enough for the target to move, unless it is about to stop. -/
theorem advances (simulation : Simulation source target Matches related measure)
    {start : State} {image : State'} (hmatches : Matches start image) :
    ∃ state image' count, source.Reaches start state ∧
      target.after count image = .next image' ∧ Matches state image' ∧
      (0 < count ∨ ∃ result, source.step state = .stop result) := by
  induction hmeasure : measure start using Nat.strongRecOn generalizing start with
  | ind size ih =>
      cases hstep : source.step start with
      | stop result =>
          exact ⟨start, image, 0, .refl start, rfl, hmatches, .inr ⟨result, hstep⟩⟩
      | next next =>
          obtain ⟨steps, image', himage, hmatches', hsmaller⟩ := simulation.next hmatches hstep
          cases steps with
          | succ steps =>
              exact ⟨next, image', steps + 1, .single hstep, himage, hmatches',
                .inl (Nat.succ_pos steps)⟩
          | zero =>
              cases himage
              obtain ⟨state, image', count, hreaches, hafter, hmatches'', hor⟩ :=
                ih (measure next) (hmeasure ▸ hsmaller rfl) hmatches' rfl
              exact ⟨state, image', count, hreaches.head hstep, hafter, hmatches'', hor⟩

/-- However far the target is to go, the source gets there too, unless it is about to stop. -/
theorem keepsPace (simulation : Simulation source target Matches related measure)
    {start : State} {image : State'} (hmatches : Matches start image) (distance : Nat) :
    ∃ state image' count, source.Reaches start state ∧
      target.after count image = .next image' ∧ Matches state image' ∧
      (distance ≤ count ∨ ∃ result, source.step state = .stop result) := by
  induction distance with
  | zero => exact ⟨start, image, 0, .refl start, rfl, hmatches, .inl (Nat.le_refl 0)⟩
  | succ distance ih =>
      obtain ⟨state, image', count, hreaches, hafter, hmatches', hfar | hstop⟩ := ih
      · obtain ⟨later, image'', more, hlater, hmore, hmatches'', hmoved⟩ :=
          simulation.advances hmatches'
        refine ⟨later, image'', count + more, hreaches.trans hlater,
          (after_add hafter more).trans hmore, hmatches'', ?_⟩
        rcases hmoved with hmoved | hstop
        · exact .inl (by omega)
        · exact .inr hstop
      · exact ⟨state, image', count, hreaches, hafter, hmatches', .inr hstop⟩

theorem ends (simulation : Simulation source target Matches related measure)
    {start : State} {image : State'} (hmatches : Matches start image) {result : Result}
    (hends : source.Ends start result) :
    ∃ result', target.Ends image result' ∧ related result result' := by
  obtain ⟨state, hreaches, hstop⟩ := hends.exists_stop
  obtain ⟨image', himage, hmatches'⟩ := simulation.reaches hmatches hreaches
  obtain ⟨last, result', hlast, -, hstop', hrelated⟩ := simulation.stop hmatches' hstop
  exact ⟨result', himage.ends (hlast.ends (.of_stop hstop')), hrelated⟩

theorem ends_back (simulation : Simulation source target Matches related measure)
    {start : State} {image : State'} (hmatches : Matches start image) {result' : Result'}
    (hends : target.Ends image result') :
    ∃ result, source.Ends start result ∧ related result result' := by
  have hunique := hends
  obtain ⟨distance, hends⟩ := hends
  obtain ⟨state, image', count, hreaches, hafter, hmatches', hfar | ⟨result, hstop⟩⟩ :=
    simulation.keepsPace hmatches distance
  · rw [after_stop_of_le hends hfar] at hafter
    contradiction
  · obtain ⟨last, other, hlast, -, hstop', hrelated⟩ := simulation.stop hmatches' hstop
    have hother : target.Ends image other :=
      Reaches.ends ⟨count, hafter⟩ (hlast.ends (.of_stop hstop'))
    cases hunique.unique hother
    exact ⟨result, hreaches.ends (.of_stop hstop), hrelated⟩

theorem emits_back (simulation : Simulation source target Matches related measure)
    {start : State} {image : State'} (hmatches : Matches start image)
    {index : Nat} {byte : UInt8} (hemits : target.Emits image index byte) :
    source.Emits start index byte := by
  obtain ⟨written, ⟨distance, hwritten⟩, hbyte⟩ := hemits
  obtain ⟨state, image', count, hreaches, hafter, hmatches', hfar | ⟨result, hstop⟩⟩ :=
    simulation.keepsPace hmatches distance
  · refine Emits.of_initial hreaches ?_ hbyte
    rw [simulation.output hmatches']
    exact output_after (after_between hwritten hafter hfar)
  · obtain ⟨last, result', ⟨more, hlast⟩, hquiet, hstop', -⟩ := simulation.stop hmatches' hstop
    have hend : target.after (count + more) image = .next last :=
      (after_add hafter more).trans hlast
    have hdistance : distance ≤ count + more := by
      refine Nat.le_of_not_lt fun hbeyond => ?_
      obtain ⟨beyond, rfl⟩ : ∃ beyond, distance = count + more + (beyond + 1) :=
        ⟨distance - (count + more) - 1, by omega⟩
      rw [after_add hend, after_succ_stop hstop'] at hwritten
      contradiction
    refine Emits.of_initial hreaches ?_ hbyte
    rw [simulation.output hmatches', ← hquiet]
    exact output_after (after_between hwritten hend hdistance)

theorem agrees (simulation : Simulation source target Matches related measure)
    {start : State} {image : State'} (hmatches : Matches start image) :
    source.Agrees target related start image where
  ends := simulation.ends hmatches
  ends_back := simulation.ends_back hmatches
  emits := by
    intro index byte
    constructor
    · rintro ⟨state, hreaches, hbyte⟩
      obtain ⟨image', himage, hmatches'⟩ := simulation.reaches hmatches hreaches
      exact ⟨image', himage, simulation.output hmatches' ▸ hbyte⟩
    · exact simulation.emits_back hmatches

end Simulation

end Brainfuck
