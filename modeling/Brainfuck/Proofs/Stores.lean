import Mathlib.Data.List.Basic
import Mathlib.Logic.Function.Basic
import Brainfuck.Files.Tree

/-! What storing does to the rest of a store.

Which paths refuse is settled from the start, and so is which paths a path reaches: what is stored
to it is found under all of them, and under no other path anything changes. Two stores are of this
kind. On a shelf the files are known by their paths alone, every path reaches itself, and any of the
paths may refuse. In a tree a path reaches all that end in the same place, and a device reaches
nothing. -/

namespace Brainfuck.Files

theorem Opened.load_eq_ok_iff {file : Opened} {contents : Bytes} :
    file.load = .ok contents ↔ (∃ size, file.size? = some size ∧ size ≤ sizeLimit) ∧
      file.fits = true ∧ file.contents? = some contents := by
  unfold load
  cases file.size? with
  | none => simp
  | some size =>
      by_cases hsize : sizeLimit < size
      · simp [hsize, Nat.not_le.mpr hsize]
      · have hle := Nat.not_lt.mp hsize
        cases file.fits with
        | false => simp [hsize]
        | true => cases file.contents? <;> simp [hsize, hle]

/-- A store in which the bytes at one path change by a store to a path that reaches it, and by
nothing else. -/
class LawfulStore (Disk : Type) extends Store Disk where
  contents? : Disk → Path → Option Bytes
  refuses : Disk → Path → Bool
  /-- What is stored to the first path is found under the second. -/
  Reaches : Disk → Path → Path → Prop
  contents?_of_load {disk : Disk} {path : Path} {bytes : Bytes} :
    load disk path = .ok bytes → contents? disk path = some bytes
  store?_eq_none_iff {disk : Disk} {path : Path} {bytes : Bytes} :
    store? disk path bytes = none ↔ refuses disk path = true
  refuses_store {disk next : Disk} {path : Path} {bytes : Bytes} :
    store? disk path bytes = some next → refuses next = refuses disk
  reaches_store {disk next : Disk} {path : Path} {bytes : Bytes} :
    store? disk path bytes = some next → Reaches next = Reaches disk
  contents?_of_reaches {disk next : Disk} {path other : Path} {bytes : Bytes} :
    store? disk path bytes = some next → Reaches disk path other →
      contents? next other = some bytes
  contents?_of_not_reaches {disk next : Disk} {path other : Path} {bytes : Bytes} :
    store? disk path bytes = some next → ¬ Reaches disk path other →
      contents? next other = contents? disk other

namespace LawfulStore

variable {Disk : Type} [LawfulStore Disk] {disk next : Disk} {path other : Path}
  {paths rest : List Path} {bytes : Bytes}

/-- The paths in front of the first that refuses. -/
def accepted (disk : Disk) (paths : List Path) : List Path :=
  paths.takeWhile fun path => !refuses disk path

/-- The bytes are stored to the paths in turn, up to the first that refuses. -/
def fill (disk : Disk) (bytes : Bytes) : List Path → Disk
  | [] => disk
  | path :: rest =>
      match Store.store? disk path bytes with
      | some next => fill next bytes rest
      | none => disk

/-- Whatever the paths reach holds the bytes. -/
def Filled (disk next : Disk) (paths : List Path) (bytes : Bytes) : Prop :=
  ∀ path ∈ paths, ∀ other, Reaches disk path other → contents? next other = some bytes

/-- Whatever the paths do not reach is unchanged. -/
def Untouched (disk next : Disk) (paths : List Path) : Prop :=
  ∀ other, (∀ path ∈ paths, ¬ Reaches disk path other) →
    contents? next other = contents? disk other

theorem Untouched.mono {wider : List Path} (huntouched : Untouched disk next paths)
    (hsubset : paths ⊆ wider) : Untouched disk next wider :=
  fun other hother => huntouched other fun path hmem => hother path (hsubset hmem)

theorem accepts_of_store (hstore : Store.store? disk path bytes = some next) :
    refuses disk path = false := by
  cases hrefuses : refuses disk path with
  | false => rfl
  | true =>
      rw [store?_eq_none_iff.mpr hrefuses] at hstore
      cases hstore

theorem exists_store (bytes : Bytes) (haccepts : refuses disk path = false) :
    ∃ next, Store.store? disk path bytes = some next := by
  refine Option.ne_none_iff_exists'.mp fun hnone => ?_
  rw [store?_eq_none_iff.mp hnone] at haccepts
  cases haccepts

@[simp] theorem accepted_nil (disk : Disk) : accepted disk [] = [] := rfl

theorem accepted_refused (hrefuses : refuses disk path = true) :
    accepted disk (path :: rest) = [] := by
  simp [accepted, hrefuses]

theorem accepted_store (hstore : Store.store? disk path bytes = some next) :
    accepted disk (path :: rest) = path :: accepted next rest := by
  simp [accepted, accepts_of_store hstore, refuses_store hstore]

theorem accepted_append (haccepts : ∀ path ∈ paths, refuses disk path = false)
    (rest : List Path) : accepted disk (paths ++ rest) = paths ++ accepted disk rest :=
  List.takeWhile_append_of_pos fun path hmem => by rw [haccepts path hmem]; rfl

@[simp] theorem fill_nil (disk : Disk) (bytes : Bytes) : fill disk bytes [] = disk := rfl

theorem fill_refused (bytes : Bytes) (hrefuses : refuses disk path = true) (rest : List Path) :
    fill disk bytes (path :: rest) = disk := by
  rw [fill, store?_eq_none_iff.mpr hrefuses]

theorem fill_store (hstore : Store.store? disk path bytes = some next) (rest : List Path) :
    fill disk bytes (path :: rest) = fill next bytes rest := by
  rw [fill, hstore]

theorem accepted_of_accepts (haccepts : ∀ path ∈ paths, refuses disk path = false) :
    accepted disk paths = paths := by
  simpa using accepted_append haccepts []

theorem untouched_fill (disk : Disk) (bytes : Bytes) (paths : List Path) :
    Untouched disk (fill disk bytes paths) (accepted disk paths) := by
  intro other hother
  induction paths generalizing disk with
  | nil => rfl
  | cons path rest ih =>
      cases hrefuses : refuses disk path with
      | true => rw [fill_refused bytes hrefuses]
      | false =>
          obtain ⟨next, hstore⟩ := exists_store bytes hrefuses
          rw [accepted_store hstore, List.forall_mem_cons, ← reaches_store hstore] at hother
          rw [fill_store hstore, ih next hother.2]
          exact contents?_of_not_reaches hstore (reaches_store hstore ▸ hother.1)

theorem filled_fill (disk : Disk) (bytes : Bytes) (paths : List Path) :
    Filled disk (fill disk bytes paths) (accepted disk paths) bytes := by
  intro path hmem other hreaches
  induction paths generalizing disk path with
  | nil => cases hmem
  | cons first rest ih =>
      cases hrefuses : refuses disk first with
      | true =>
          rw [accepted_refused hrefuses] at hmem
          cases hmem
      | false =>
          obtain ⟨next, hstore⟩ := exists_store bytes hrefuses
          rw [accepted_store hstore, List.mem_cons] at hmem
          rw [fill_store hstore]
          by_cases hlater : ∃ later ∈ accepted next rest, Reaches next later other
          · obtain ⟨later, hmem, hreaches⟩ := hlater
            exact ih next later hmem hreaches
          · have hnone : ∀ later ∈ accepted next rest, ¬ Reaches next later other :=
              fun later hmem hreaches => hlater ⟨later, hmem, hreaches⟩
            rw [untouched_fill next bytes rest other hnone]
            obtain rfl | hmem := hmem
            · exact contents?_of_reaches hstore hreaches
            · exact absurd (reaches_store hstore ▸ hreaches) (hnone path hmem)

end LawfulStore

structure Shelf where
  contents : Path → Option Bytes
  /-- Why a path cannot be read, whatever it holds. -/
  locked : Path → Option LoadError
  /-- The path cannot be written. -/
  refuses : Path → Bool

namespace Shelf

def load (files : Shelf) (path : Path) : Except LoadError Bytes :=
  match files.locked path, files.contents path with
  | some error, _ => .error error
  | none, some bytes => (Opened.holding bytes).load
  | none, none => .error .absent

def store? (files : Shelf) (path : Path) (bytes : Bytes) : Option Shelf :=
  if files.refuses path then none
  else some { files with contents := Function.update files.contents path (some bytes) }

theorem store?_eq_some_iff {files next : Shelf} {path : Path} {bytes : Bytes} :
    files.store? path bytes = some next ↔ files.refuses path = false ∧
      next = { files with contents := Function.update files.contents path (some bytes) } := by
  unfold store?
  cases files.refuses path <;> simp [eq_comm]

theorem contents_of_load {files : Shelf} {path : Path} {bytes : Bytes}
    (hload : files.load path = .ok bytes) : files.contents path = some bytes := by
  unfold load at hload
  split at hload
  · cases hload
  · next hcontents =>
      rw [hcontents]
      exact (Opened.load_eq_ok_iff.mp hload).2.2
  · cases hload

instance : LawfulStore Shelf where
  load := load
  store? := store?
  contents? := contents
  refuses := refuses
  Reaches _ path other := path = other
  contents?_of_load := contents_of_load
  store?_eq_none_iff := by simp [store?]
  refuses_store hstore := by rw [(store?_eq_some_iff.mp hstore).2]
  reaches_store _ := rfl
  contents?_of_reaches hstore := by
    rintro rfl
    rw [(store?_eq_some_iff.mp hstore).2]
    exact Function.update_self ..
  contents?_of_not_reaches hstore hother := by
    rw [(store?_eq_some_iff.mp hstore).2]
    exact Function.update_of_ne (Ne.symm hother) ..

variable {files next : Shelf} {paths : List Path} {bytes : Bytes}

theorem filled_iff : LawfulStore.Filled files next paths bytes ↔
    ∀ path ∈ paths, next.contents path = some bytes :=
  forall₂_congr fun _ _ => forall_eq'

theorem untouched_iff : LawfulStore.Untouched files next paths ↔
    ∀ path ∉ paths, next.contents path = files.contents path :=
  forall_congr' fun _ => imp_congr List.forall_mem_ne' Iff.rfl

end Shelf

namespace Spot

/-- What is stored here stays. -/
def keeps (spot : Spot) : Bool :=
  match spot.entry? with
  | none | some (.file _) => true
  | _ => false

/-- Nothing can be stored here. -/
def refuses (spot : Spot) : Bool :=
  match spot.entry? with
  | some .directory | some (.device .full) => true
  | _ => false

theorem accepts_of_keeps {spot : Spot} (hkeeps : spot.keeps = true) : spot.refuses = false := by
  unfold keeps at hkeeps
  unfold refuses
  split at hkeeps <;> simp_all

end Spot

namespace Tree

variable {tree next : Tree} {path other : Path} {place start : Place} {spot : Spot}
  {bytes : Bytes}

/-- Where a path keeps what is stored to it. -/
def kept? (tree : Tree) (path : Path) : Option Place :=
  ((tree.spot? path).filter Spot.keeps).map Spot.place

/-- A spot after a file is put at a place, if there is one. -/
def filled (place? : Option Place) (bytes : Bytes) (spot : Spot) : Spot :=
  if place? = some spot.place then ⟨spot.place, some (.file bytes)⟩ else spot

theorem filled_of_eq {place? : Option Place} (hplace : place? = some spot.place) :
    filled place? bytes spot = ⟨spot.place, some (.file bytes)⟩ :=
  if_pos hplace

theorem filled_of_ne {place? : Option Place} (hplace : place? ≠ some spot.place) :
    filled place? bytes spot = spot :=
  if_neg hplace

@[simp] theorem place_filled (place? : Option Place) (bytes : Bytes) (spot : Spot) :
    (filled place? bytes spot).place = spot.place := by
  unfold filled
  split <;> rfl

theorem entry?_put_self (tree : Tree) (place : Place) (entry : Entry) :
    entry? (tree.put place entry) place = some entry := by
  simp [put, entry?]

theorem entry?_put_of_ne (tree : Tree) (entry : Entry) {other : Place} (hplace : other ≠ place) :
    entry? (tree.put place entry) other = tree.entry? other := by
  simp [put, entry?, List.lookup_cons, beq_false_of_ne hplace]

theorem entry?_of_follow {parts : List Bytes} (hfollow : tree.follow start parts = .ok spot) :
    tree.entry? spot.place = spot.entry? := by
  fun_induction follow tree start parts with
  | case1 place =>
      cases hfollow
      rfl
  | case2 place part rest hentry hstay ih => exact ih hfollow
  | case3 place rest hentry hstay ih => exact ih hfollow
  | case4 => cases hfollow
  | case5 place part rest hentry hstay hup hlength ih => exact ih hfollow
  | case6 => cases hfollow
  | case7 => cases hfollow

theorem toOption_follow_put (hplace : tree.entry? place ≠ some .directory) (bytes : Bytes)
    (parts : List Bytes) :
    ((tree.put place (.file bytes)).follow start parts).toOption =
      (tree.follow start parts).toOption.map (filled (some place) bytes) := by
  induction parts generalizing start with
  | nil =>
      by_cases hstart : start = place
      · subst hstart
        rw [follow, entry?_put_self, follow]
        exact congrArg some (if_pos rfl).symm
      · rw [follow, entry?_put_of_ne _ _ hstart, follow]
        exact congrArg some (if_neg fun hplace => hstart (Option.some.inj hplace).symm).symm
  | cons part rest ih =>
      by_cases hstart : start = place
      · subst hstart
        simp only [follow, entry?_put_self]
        split
        · contradiction
        · rfl
        · rfl
      · simp only [follow, entry?_put_of_ne _ _ hstart]
        split
        · split
          · exact ih
          · split
            · exact ih
            · split
              · rfl
              · exact ih
        · rfl
        · rfl

theorem spot?_put (hplace : tree.entry? place ≠ some .directory) (bytes : Bytes) (path : Path) :
    (tree.put place (.file bytes)).spot? path =
      (tree.spot? path).map (filled (some place) bytes) := by
  unfold spot? locate
  split
  · rfl
  · split
    · rfl
    · exact toOption_follow_put hplace bytes path.parts

theorem spot?_eq_some_iff : tree.spot? path = some spot ↔ tree.locate path = .ok spot := by
  unfold spot?
  cases tree.locate path <;> simp [Except.toOption]

theorem entry?_of_spot? (hspot : tree.spot? path = some spot) :
    tree.entry? spot.place = spot.entry? := by
  have hlocate := spot?_eq_some_iff.mp hspot
  unfold locate at hlocate
  split at hlocate
  · cases hlocate
  · split at hlocate
    · cases hlocate
    · exact entry?_of_follow hlocate

theorem kept?_eq_some_iff : tree.kept? path = some place ↔
    ∃ spot, tree.spot? path = some spot ∧ spot.keeps = true ∧ spot.place = place := by
  simp only [kept?, Option.map_eq_some_iff, Option.filter_eq_some_iff, and_assoc]

theorem keeps_of_kept? (hkept : tree.kept? other = some spot.place)
    (hspot : tree.spot? path = some spot) : spot.keeps = true := by
  obtain ⟨found, hfound, hkeeps, hplace⟩ := kept?_eq_some_iff.mp hkept
  have hentry : spot.entry? = found.entry? := by
    rw [← entry?_of_spot? hspot, ← entry?_of_spot? hfound, hplace]
  rw [Spot.keeps] at hkeeps ⊢
  rw [hentry]
  exact hkeeps

theorem store?_eq_none_iff :
    tree.store? path bytes = none ↔ (tree.spot? path).all Spot.refuses = true := by
  rw [store?, Option.bind_eq_none_iff, Option.all_eq_true]
  refine forall₂_congr fun spot _ => ?_
  unfold write? Spot.refuses
  split <;> simp_all

theorem write?_of_keeps (hkeeps : spot.keeps = true) :
    tree.write? spot bytes = some (tree.put spot.place (.file bytes)) := by
  unfold Spot.keeps at hkeeps
  unfold write?
  split <;> simp_all

theorem write?_of_not_keeps (hkeeps : spot.keeps = false)
    (hwrite : tree.write? spot bytes = some next) : next = tree := by
  unfold Spot.keeps at hkeeps
  unfold write? at hwrite
  split at hwrite <;> simp_all

/-- A store changes the entry where the bytes are kept, and nothing else. -/
theorem spot?_store (hstore : tree.store? path bytes = some next) (other : Path) :
    next.spot? other = (tree.spot? other).map (filled (tree.kept? path) bytes) := by
  obtain ⟨target, htarget, hwrite⟩ := Option.bind_eq_some_iff.mp hstore
  cases hkeeps : target.keeps with
  | false =>
      have hkept : tree.kept? path = none := by
        rw [kept?, htarget, Option.filter_some_neg (by simp [hkeeps]), Option.map_none]
      rw [write?_of_not_keeps hkeeps hwrite, hkept]
      cases tree.spot? other <;> rfl
  | true =>
      have hkept : tree.kept? path = some target.place :=
        kept?_eq_some_iff.mpr ⟨target, htarget, hkeeps, rfl⟩
      have hplace : tree.entry? target.place ≠ some .directory := by
        intro hdirectory
        rw [entry?_of_spot? htarget] at hdirectory
        simp [Spot.keeps, hdirectory] at hkeeps
      rw [write?_of_keeps hkeeps, Option.some_inj] at hwrite
      rw [← hwrite, spot?_put hplace, hkept]

theorem kind_filled (hspot : tree.spot? path = some spot) (other : Path) (bytes : Bytes) :
    (filled (tree.kept? other) bytes spot).keeps = spot.keeps ∧
      (filled (tree.kept? other) bytes spot).refuses = spot.refuses := by
  by_cases hkept : tree.kept? other = some spot.place
  · have hkeeps := keeps_of_kept? hkept hspot
    rw [filled_of_eq hkept, hkeeps, Spot.accepts_of_keeps hkeeps]
    exact ⟨rfl, rfl⟩
  · rw [filled_of_ne hkept]
    exact ⟨rfl, rfl⟩

theorem kept?_store (hstore : tree.store? path bytes = some next) :
    next.kept? = tree.kept? := by
  funext other
  change ((next.spot? other).filter Spot.keeps).map Spot.place =
    ((tree.spot? other).filter Spot.keeps).map Spot.place
  rw [spot?_store hstore]
  cases hspot : tree.spot? other with
  | none => rfl
  | some spot => simp [Option.filter, (kind_filled hspot path bytes).1]

theorem contents?_of_kept? (hstore : tree.store? path bytes = some next)
    (hpath : tree.kept? path = some place) (hother : tree.kept? other = some place) :
    next.contents? other = some bytes := by
  obtain ⟨spot, hspot, -, rfl⟩ := kept?_eq_some_iff.mp hother
  rw [contents?, spot?_store hstore, hspot, Option.map_some, filled_of_eq hpath]
  rfl

theorem contents?_of_not_kept? (hstore : tree.store? path bytes = some next)
    (hother : ∀ place, tree.kept? path = some place → tree.kept? other ≠ some place) :
    next.contents? other = tree.contents? other := by
  rw [contents?, spot?_store hstore, contents?]
  cases hspot : tree.spot? other with
  | none => rfl
  | some spot =>
      have hplace : tree.kept? path ≠ some spot.place := fun hkept =>
        hother spot.place hkept
          (kept?_eq_some_iff.mpr ⟨spot, hspot, keeps_of_kept? hkept hspot, rfl⟩)
      rw [Option.map_some, filled_of_ne hplace]

theorem contents?_of_load (hload : tree.load path = .ok bytes) :
    tree.contents? path = some bytes := by
  unfold load at hload
  split at hload
  · next hlocate =>
      rw [contents?, spot?_eq_some_iff.mpr hlocate]
      exact (Opened.load_eq_ok_iff.mp hload).2.2
  · cases hload
  · cases hload

instance : LawfulStore Tree where
  contents? := contents?
  refuses tree path := (tree.spot? path).all Spot.refuses
  Reaches tree path other := ∃ place, tree.kept? path = some place ∧ tree.kept? other = some place
  contents?_of_load := contents?_of_load
  store?_eq_none_iff := store?_eq_none_iff
  refuses_store hstore := by
    funext other
    rw [spot?_store hstore]
    cases hspot : Tree.spot? _ other with
    | none => rfl
    | some spot => exact (kind_filled hspot _ _).2
  reaches_store hstore := by rw [kept?_store hstore]
  contents?_of_reaches hstore := fun ⟨_, hpath, hother⟩ => contents?_of_kept? hstore hpath hother
  contents?_of_not_reaches hstore hreaches :=
    contents?_of_not_kept? hstore fun place hpath hother => hreaches ⟨place, hpath, hother⟩

/-! What is stored to `a` is found under `./a`. -/

example :
    let tree : Tree := ⟨[([], .directory), (home, .directory)]⟩
    (tree.store? [0x61] [0x2B]).bind (·.contents? [0x2E, 0x2F, 0x61]) = some [0x2B] := rfl

end Tree

end Brainfuck.Files
