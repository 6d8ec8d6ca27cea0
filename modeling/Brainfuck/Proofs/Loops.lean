import Brainfuck.Proofs.Layout

/-! The loops of a tree.

A loop is known by the path that leads to it from the root. `Block.loops` lists all of them in the
order in which they are met, each in front of those inside it. In a layout every loop takes up a
stretch of the code, and these stretches are nested as the loops are. -/

namespace Brainfuck

/-- A loop in a tree. At each level, the path tells how many instructions stand in front of the loop
that leads on. -/
structure Loop where
  path : List Nat
  body : Block

namespace Loop

/-- A loop of a body, seen from the block that holds the loop with this body. -/
def within (index : Nat) (loop : Loop) : Loop :=
  ⟨index :: loop.path, loop.body⟩

def Encloses (outer inner : Loop) : Prop :=
  outer.path <+: inner.path ∧ outer.path ≠ inner.path

theorem within_encloses_within {index : Nat} {outer inner : Loop} :
    (outer.within index).Encloses (inner.within index) ↔ outer.Encloses inner := by
  simp [Encloses, within]

end Loop

namespace Block

/-- The body of the loop at the end of a path; the empty path stays at the root. -/
def bodyAt? : Block → List Nat → Option Block
  | block, [] => some block
  | block, index :: path =>
      match block.get? index with
      | some (.loop body) => body.bodyAt? path
      | _ => none

/-- The loops of a block whose first instruction has the number `index`. -/
def loopsFrom (index : Nat) : Block → List Loop
  | .nil => []
  | .op _ rest => rest.loopsFrom (index + 1)
  | .loop body rest =>
      ⟨[index], body⟩ ::
        ((body.loopsFrom 0).map (Loop.within index) ++ rest.loopsFrom (index + 1))

def loops (block : Block) : List Loop :=
  block.loopsFrom 0

theorem mem_loopsFrom {index : Nat} {block : Block} {loop : Loop} :
    loop ∈ block.loopsFrom index ↔
      ∃ offset path, loop.path = (index + offset) :: path ∧
        block.bodyAt? (offset :: path) = some loop.body := by
  induction block generalizing index loop with
  | nil => simp [loopsFrom, bodyAt?, get?]
  | op operation rest ih =>
      rw [loopsFrom, ih]
      constructor
      · rintro ⟨offset, path, hpath, hbody⟩
        exact ⟨offset + 1, path, by rw [hpath, Nat.add_right_comm, Nat.add_assoc], hbody⟩
      · rintro ⟨offset, path, hpath, hbody⟩
        cases offset with
        | zero => cases hbody
        | succ offset => exact ⟨offset, path, by rw [hpath, Nat.add_right_comm, Nat.add_assoc], hbody⟩
  | loop body rest ihBody ihRest =>
      rw [loopsFrom, List.mem_cons, List.mem_append, List.mem_map, ihRest]
      constructor
      · rintro (rfl | ⟨inner, hinner, rfl⟩ | ⟨offset, path, hpath, hbody⟩)
        · exact ⟨0, [], rfl, rfl⟩
        · obtain ⟨offset, path, hpath, hbody⟩ := ihBody.mp hinner
          rw [Nat.zero_add] at hpath
          exact ⟨0, offset :: path, congrArg (index :: ·) hpath, hbody⟩
        · exact ⟨offset + 1, path, by rw [hpath, Nat.add_right_comm, Nat.add_assoc], hbody⟩
      · rintro ⟨offset, path, hpath, hbody⟩
        obtain ⟨fullPath, inner⟩ := loop
        cases hpath
        cases offset with
        | zero =>
            cases path with
            | nil =>
                cases hbody
                exact .inl rfl
            | cons next path =>
                refine .inr (.inl ⟨⟨next :: path, inner⟩, ?_, rfl⟩)
                exact ihBody.mpr ⟨next, path, by rw [Nat.zero_add], hbody⟩
        | succ offset =>
            refine .inr (.inr ⟨offset, path, ?_, hbody⟩)
            change (index + (offset + 1)) :: path = _
            congr 1
            omega

/-- The loops of a tree are what its non-empty paths lead to. -/
theorem mem_loops {block : Block} {loop : Loop} :
    loop ∈ block.loops ↔ loop.path ≠ [] ∧ block.bodyAt? loop.path = some loop.body := by
  rw [loops, mem_loopsFrom]
  constructor
  · rintro ⟨offset, path, hpath, hbody⟩
    rw [hpath, Nat.zero_add]
    exact ⟨List.cons_ne_nil _ _, hbody⟩
  · rintro ⟨hnonempty, hbody⟩
    obtain ⟨offset, path, hpath⟩ := List.exists_cons_of_ne_nil hnonempty
    exact ⟨offset, path, by rw [hpath, Nat.zero_add], hpath ▸ hbody⟩

theorem forall_loopsFrom_loop (property : Block → Prop) {index : Nat} {body rest : Block} :
    (∀ loop ∈ (Block.loop body rest).loopsFrom index, property loop.body) ↔
      property body ∧ (∀ loop ∈ body.loopsFrom 0, property loop.body) ∧
        ∀ loop ∈ rest.loopsFrom (index + 1), property loop.body := by
  simp [loopsFrom, Loop.within, or_imp, forall_and]

/-- The bodies of the loops of a tree, each in front of those inside it. -/
def bodies (block : Block) : List Block :=
  block.loops.map Loop.body

/-- The blocks of a tree: the tree itself and its loop bodies. -/
def levels (block : Block) : List Block :=
  block :: block.bodies

theorem map_body_loopsFrom (index : Nat) (block : Block) :
    (block.loopsFrom index).map Loop.body = block.bodies := by
  rw [bodies, loops]
  generalize 0 = start
  induction block generalizing index start with
  | nil => rfl
  | op operation rest ih => exact ih ..
  | loop body rest _ ihRest =>
      simp only [loopsFrom, List.map_cons, List.map_append]
      rw [ihRest (index + 1) (start + 1), List.map_map, List.map_map]
      rfl

@[simp] theorem bodies_nil : bodies nil = [] := rfl

@[simp] theorem bodies_op (operation : Op) (rest : Block) :
    (op operation rest).bodies = rest.bodies :=
  map_body_loopsFrom 1 rest

@[simp] theorem bodies_loop (body rest : Block) :
    (loop body rest).bodies = body :: (body.bodies ++ rest.bodies) := by
  rw [← map_body_loopsFrom 1 rest, bodies, loops, loopsFrom, List.map_cons, List.map_append,
    List.map_map]
  rfl

/-- The body of a loop has fewer operations and loops than the tree around it. -/
theorem count_lt_of_mem_loopsFrom (index : Nat) (block : Block) :
    ∀ loop ∈ block.loopsFrom index,
      loop.body.opCount + loop.body.loopCount < block.opCount + block.loopCount := by
  induction block generalizing index with
  | nil => exact fun _ hloop => (List.not_mem_nil hloop).elim
  | op operation rest ih =>
      rw [opCount_op, loopCount_op]
      intro loop hloop
      have hrest := ih (index + 1) loop hloop
      omega
  | loop body rest ihBody ihRest =>
      rw [opCount_loop, loopCount_loop]
      refine (forall_loopsFrom_loop (fun inner => inner.opCount + inner.loopCount < _)).mpr
        ⟨by omega, ?_, ?_⟩
      · intro loop hloop
        have hbody := ihBody 0 loop hloop
        omega
      · intro loop hloop
        have hrest := ihRest (index + 1) loop hloop
        omega

end Block

/-- A loop in a layout: the number of its first label, and the place where its code starts. -/
structure Site where
  loop : Loop
  label : Nat
  origin : Nat

namespace Site

def within (index : Nat) (site : Site) : Site :=
  { site with loop := site.loop.within index }

end Site

namespace Layout

variable {I : Type}

/-- The loops of a block that is laid out with labels from `label` on at the place `origin`. The
first instruction of the block has the number `index`. -/
def sites (layout : Layout I) : Nat → Nat → Nat → Block → List Site
  | _, _, _, .nil => []
  | index, label, origin, .op operation rest =>
      layout.sites (index + 1) label (origin + (layout.op operation).length) rest
  | index, label, origin, .loop body rest =>
      ⟨⟨[index], body⟩, label, origin⟩ ::
        ((layout.sites 0 (label + 2) (origin + (layout.enter label).length) body).map
            (Site.within index) ++
          layout.sites (index + 1) (label + 2 + 2 * body.loopCount)
            (origin + (layout.whole label body).length) rest)

variable (layout : Layout I)

/-- The first place behind the code of a loop. -/
def stop (site : Site) : Nat :=
  site.origin + (layout.whole site.label site.loop.body).length

/-- The ways in which two loops can stand in the code, the first one starting earlier. -/
inductive Arranged (first second : Site) : Prop
  | inside (hencloses : first.loop.Encloses second.loop) (horigin : first.origin < second.origin)
      (hstop : layout.stop second < layout.stop first)
  | behind (hpath : ¬ first.loop.path <+: second.loop.path)
      (hpath' : ¬ second.loop.path <+: first.loop.path)
      (horigin : layout.stop first ≤ second.origin)

theorem length_whole (label : Nat) (body : Block) : (layout.whole label body).length =
    (layout.enter label).length + (layout.code (label + 2) body).length +
      (layout.leave label).length := by
  rw [whole, List.length_append, List.length_append]

theorem map_loop_sites (index label origin : Nat) (block : Block) :
    (layout.sites index label origin block).map Site.loop = block.loopsFrom index := by
  induction block generalizing index label origin with
  | nil => rfl
  | op operation rest ih => exact ih ..
  | loop body rest ihBody ihRest =>
      rw [sites, List.map_cons, List.map_append, List.map_map, ihRest, Block.loopsFrom, ← ihBody,
        List.map_map]
      rfl

/-- The labels are handed out two at a time, in the order of the loops. -/
theorem map_label_sites (index label origin : Nat) (block : Block) :
    (layout.sites index label origin block).map Site.label =
      List.range' label block.loopCount 2 := by
  induction block generalizing index label origin with
  | nil => simp [sites]
  | op operation rest ih =>
      rw [Block.loopCount_op]
      exact ih ..
  | loop body rest ihBody ihRest =>
      have hbody : ((layout.sites 0 (label + 2) (origin + (layout.enter label).length) body).map
          (Site.within index)).map Site.label = List.range' (label + 2) body.loopCount 2 := by
        rw [List.map_map]
        exact ihBody ..
      rw [sites, List.map_cons, List.map_append, hbody, ihRest, List.range'_append,
        Block.loopCount_loop, List.range'_succ]

variable {layout} {index label origin : Nat} {block : Block} {site : Site}

theorem path_of_mem_sites (hsite : site ∈ layout.sites index label origin block) :
    ∃ offset path, site.loop.path = (index + offset) :: path := by
  have hloop : site.loop ∈ block.loopsFrom index :=
    layout.map_loop_sites index label origin block ▸ List.mem_map_of_mem hsite
  obtain ⟨offset, path, hpath, -⟩ := Block.mem_loopsFrom.mp hloop
  exact ⟨offset, path, hpath⟩

theorem bounds_of_mem_sites (hsite : site ∈ layout.sites index label origin block) :
    origin ≤ site.origin ∧ layout.stop site ≤ origin + (layout.code label block).length := by
  induction block generalizing index label origin site with
  | nil => cases hsite
  | op operation rest ih =>
      have hbounds := ih hsite
      rw [code, List.length_append]
      omega
  | loop body rest ihBody ihRest =>
      rw [sites, List.mem_cons, List.mem_append, List.mem_map] at hsite
      have hcode : (layout.code label (.loop body rest)).length =
          (layout.whole label body).length +
            (layout.code (label + 2 + 2 * body.loopCount) rest).length := by
        rw [code, whole, List.length_append]
      rw [hcode]
      rcases hsite with rfl | ⟨inner, hinner, rfl⟩ | hlater
      · simp only [stop]
        omega
      · have hbounds := ihBody hinner
        have hwhole := layout.length_whole label body
        change origin ≤ inner.origin ∧ layout.stop inner ≤ _
        omega
      · have hbounds := ihRest hlater
        omega

/-- The code of every loop stands where its site says. -/
theorem placed_of_mem_sites {program : List I}
    (hplaced : Placed program origin (layout.code label block))
    (hsite : site ∈ layout.sites index label origin block) :
    Placed program site.origin (layout.whole site.label site.loop.body) := by
  induction block generalizing index label origin site with
  | nil => cases hsite
  | op operation rest ih => exact ih (placed_append.mp hplaced).2 hsite
  | loop body rest ihBody ihRest =>
      obtain ⟨hwhole, hrest⟩ := placed_append.mp hplaced
      rw [sites, List.mem_cons, List.mem_append, List.mem_map] at hsite
      rcases hsite with rfl | ⟨inner, hinner, rfl⟩ | hlater
      · exact hwhole
      · have hbody := (placed_append.mp (placed_append.mp hwhole).1).2
        exact (ihBody hbody hinner :)
      · exact ihRest hrest hlater

/-- What an item of the code is part of: an operation, or one of the two ends of a loop. -/
inductive Part (layout : Layout I) (sites : List Site) (place : Nat) (item : I) : Prop
  | op {operation : Op} (hitem : item ∈ layout.op operation)
  | enter {site : Site} {offset : Nat} (hsite : site ∈ sites)
      (hitem : (layout.enter site.label)[offset]? = some item)
      (hplace : place = site.origin + offset)
  | leave {site : Site} {offset : Nat} (hsite : site ∈ sites)
      (hitem : (layout.leave site.label)[offset]? = some item)
      (hplace : place = site.origin + (layout.enter site.label).length +
        (layout.code (site.label + 2) site.loop.body).length + offset)

section Part

variable {sites more : List Site} {place : Nat} {item : I}

theorem Part.mono (hpart : layout.Part sites place item) (hmore : sites ⊆ more) :
    layout.Part more place item := by
  cases hpart with
  | op hitem => exact .op hitem
  | enter hsite hitem hplace => exact .enter (hmore hsite) hitem hplace
  | leave hsite hitem hplace => exact .leave (hmore hsite) hitem hplace

theorem Part.within (hpart : layout.Part sites place item) (index : Nat) :
    layout.Part (sites.map (Site.within index)) place item := by
  cases hpart with
  | op hitem => exact .op hitem
  | enter hsite hitem hplace => exact .enter (List.mem_map_of_mem hsite) hitem hplace
  | leave hsite hitem hplace => exact .leave (List.mem_map_of_mem hsite) hitem hplace

theorem getElem?_append_cases {front back : List I}
    (hitem : (front ++ back)[place]? = some item) :
    front[place]? = some item ∨
      ∃ offset, place = front.length + offset ∧ back[offset]? = some item := by
  rcases Nat.lt_or_ge place front.length with hfront | hback
  · exact .inl (by rwa [List.getElem?_append_left hfront] at hitem)
  · refine .inr ⟨place - front.length, by omega, ?_⟩
    rwa [List.getElem?_append_right hback] at hitem

/-- There is nothing in the code but the parts of operations and loops. -/
theorem part_of_getElem? (index origin : Nat)
    (hitem : (layout.code label block)[place]? = some item) :
    layout.Part (layout.sites index label origin block) (origin + place) item := by
  induction block generalizing index label origin place with
  | nil => cases hitem
  | op operation rest ih =>
      rcases getElem?_append_cases hitem with hown | ⟨offset, rfl, hrest⟩
      · exact .op (List.mem_of_getElem? hown)
      · rw [← Nat.add_assoc]
        exact ih (index + 1) _ hrest
  | loop body rest ihBody ihRest =>
      rw [code, List.append_assoc, List.append_assoc] at hitem
      rcases getElem?_append_cases hitem with henter | ⟨first, rfl, hinside⟩
      · exact .enter List.mem_cons_self henter rfl
      rcases getElem?_append_cases hinside with hbody | ⟨second, rfl, hbehind⟩
      · have hpart := (ihBody 0 (origin + (layout.enter label).length) hbody).within index
        rw [← Nat.add_assoc]
        exact hpart.mono fun site hsite => List.mem_cons_of_mem _ (List.mem_append_left _ hsite)
      rcases getElem?_append_cases hbehind with hleave | ⟨third, rfl, hrest⟩
      · refine .leave List.mem_cons_self hleave ?_
        simp only [Nat.add_assoc]
      · have hpart := ihRest (index + 1) (origin + (layout.whole label body).length) hrest
        have hplace : origin + ((layout.enter label).length +
            ((layout.code (label + 2) body).length + ((layout.leave label).length + third))) =
              origin + (layout.whole label body).length + third := by
          rw [layout.length_whole]
          omega
        rw [hplace]
        exact hpart.mono fun site hsite => List.mem_cons_of_mem _ (List.mem_append_right _ hsite)

end Part

theorem Arranged.within {first second : Site} (harranged : layout.Arranged first second)
    (index : Nat) : layout.Arranged (first.within index) (second.within index) := by
  cases harranged with
  | inside hencloses horigin hstop =>
      exact .inside (Loop.within_encloses_within.mpr hencloses) horigin hstop
  | behind hpath hpath' horigin =>
      refine .behind ?_ ?_ horigin
      · exact fun hprefix => hpath (List.cons_prefix_cons.mp hprefix).2
      · exact fun hprefix => hpath' (List.cons_prefix_cons.mp hprefix).2

/-- What starts at one instruction of a block stands apart from what comes after it. -/
theorem arranged_later {later : Site} {path : List Nat} (hpath : site.loop.path = index :: path)
    (hstop : layout.stop site ≤ origin)
    (hlater : later ∈ layout.sites (index + 1) label origin block) :
    layout.Arranged site later := by
  obtain ⟨offset, path', hpath'⟩ := path_of_mem_sites hlater
  have hne : index ≠ index + 1 + offset := by omega
  refine .behind ?_ ?_ (Nat.le_trans hstop (bounds_of_mem_sites hlater).1)
  · rw [hpath, hpath']
    exact fun hprefix => hne (List.cons_prefix_cons.mp hprefix).1
  · rw [hpath, hpath']
    exact fun hprefix => hne (List.cons_prefix_cons.mp hprefix).1.symm

section Nesting

variable (hguarded : ∀ label, layout.enter label ≠ [] ∧ layout.leave label ≠ [])

include hguarded

theorem arranged_inner {body : Block} {inner : Site}
    (hinner : inner ∈ layout.sites 0 (label + 2) (origin + (layout.enter label).length) body) :
    layout.Arranged ⟨⟨[index], body⟩, label, origin⟩ (inner.within index) := by
  have henter := List.length_pos_iff.mpr (hguarded label).1
  have hleave := List.length_pos_iff.mpr (hguarded label).2
  have hwhole := layout.length_whole label body
  have hbounds := bounds_of_mem_sites hinner
  obtain ⟨offset, path, hpath⟩ := path_of_mem_sites hinner
  refine .inside ⟨⟨inner.loop.path, rfl⟩, ?_⟩ ?_ ?_
  · intro heq
    have htail : [] = inner.loop.path := List.tail_eq_of_cons_eq heq
    rw [hpath] at htail
    cases htail
  · change origin < inner.origin
    omega
  · change layout.stop inner < origin + (layout.whole label body).length
    omega

theorem arranged_sites (index label origin : Nat) (block : Block) :
    (layout.sites index label origin block).Pairwise layout.Arranged := by
  induction block generalizing index label origin with
  | nil => exact .nil
  | op operation rest ih => exact ih ..
  | loop body rest ihBody ihRest =>
      rw [sites, List.pairwise_cons, List.pairwise_append, List.pairwise_map]
      refine ⟨?_, (ihBody ..).imp fun harranged => harranged.within index, ihRest .., ?_⟩
      · intro site hsite
        rcases List.mem_append.mp hsite with hsite | hlater
        · obtain ⟨inner, hinner, rfl⟩ := List.mem_map.mp hsite
          exact arranged_inner hguarded hinner
        · exact arranged_later rfl (Nat.le_refl _) hlater
      · intro site hsite later hlater
        obtain ⟨inner, hinner, rfl⟩ := List.mem_map.mp hsite
        have hwhole := layout.length_whole label body
        have hbounds := bounds_of_mem_sites hinner
        refine arranged_later rfl ?_ hlater
        change layout.stop inner ≤ _
        omega

variable {first second : Site}
  (hfirst : first ∈ layout.sites index label origin block)
  (hsecond : second ∈ layout.sites index label origin block)

include hfirst hsecond

theorem arranged_of_mem_sites :
    first = second ∨ layout.Arranged first second ∨ layout.Arranged second first := by
  have hpairwise := arranged_sites hguarded index label origin block
  exact List.Pairwise.forall_of_forall_of_flip
    (R := fun first second =>
      first = second ∨ layout.Arranged first second ∨ layout.Arranged second first)
    (fun _ _ => .inl rfl) (hpairwise.imp fun harranged => .inr (.inl harranged))
    (hpairwise.imp fun harranged => .inr (.inr harranged)) hfirst hsecond

/-- One loop encloses another exactly if its code does so. -/
theorem encloses_iff_of_mem_sites :
    first.loop.Encloses second.loop ↔
      first.origin < second.origin ∧ layout.stop second < layout.stop first := by
  have hlength : ∀ site : Site, site.origin ≤ layout.stop site := fun _ => Nat.le_add_right _ _
  have hfirstLength := hlength first
  have hsecondLength := hlength second
  rcases arranged_of_mem_sites hguarded hfirst hsecond with rfl | harranged | harranged
  · exact iff_of_false (fun hencloses => hencloses.2 rfl) (by omega)
  · cases harranged with
    | inside hencloses horigin hstop => exact iff_of_true hencloses ⟨horigin, hstop⟩
    | behind hpath _ horigin =>
        exact iff_of_false (fun hencloses => hpath hencloses.1) (by omega)
  · cases harranged with
    | inside hencloses horigin hstop =>
        refine iff_of_false ?_ (by omega)
        intro hback
        exact hback.2 (hback.1.eq_of_length_le hencloses.1.length_le)
    | behind _ hpath horigin =>
        exact iff_of_false (fun hencloses => hpath hencloses.1) (by omega)

/-- Loops of which neither encloses the other have separate code. -/
theorem disjoint_of_mem_sites (hdistinct : first.loop.path ≠ second.loop.path)
    (hnotOuter : ¬ first.loop.Encloses second.loop)
    (hnotInner : ¬ second.loop.Encloses first.loop) :
    layout.stop first ≤ second.origin ∨ layout.stop second ≤ first.origin := by
  rcases arranged_of_mem_sites hguarded hfirst hsecond with rfl | harranged | harranged
  · exact absurd rfl hdistinct
  · cases harranged with
    | inside hencloses _ _ => exact absurd hencloses hnotOuter
    | behind _ _ horigin => exact .inl horigin
  · cases harranged with
    | inside hencloses _ _ => exact absurd hencloses hnotInner
    | behind _ _ horigin => exact .inr horigin

end Nesting

end Layout

end Brainfuck
