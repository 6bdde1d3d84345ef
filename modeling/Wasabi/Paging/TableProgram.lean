import Wasabi.Paging.InitPaging
import Wasabi.Support.Simulation

/-!
# The mapping code over any memory of tables

The functions of the page-table code once more, over the three operations by
which they touch memory. With the memory of whole tables they are the
functions modelled before. Two memories whose operations simulate each other
give simulating runs of the whole code.
-/

set_option autoImplicit false

namespace Wasabi.Paging.TableProgram
open Wasabi.Rust Wasabi.WordBits Wasabi.Outcome Wasabi.Simulation Wasabi.Uefi.MemoryMap
open Wasabi.Paging.PageTable (attrMask PageAttr isPresent calcIndex stepBy pageSize TableMemory)
open Wasabi.Paging.Mapping (Call)
open Wasabi.Paging.InitPaging (extend)

/-- How the code touches memory: an entry is read or written in place, and
`Box::new` gives a zeroed table. -/
structure Tables (σ : Type) where
  readValue : ℕ → Fin 512 → Stateful String σ Fault ℕ
  writeValue : ℕ → Fin 512 → ℕ → Stateful String σ Fault Unit
  newTable : Stateful String σ Fault ℕ

section Program
variable {σ : Type} (t : Tables σ)

def lift {α : Type} (x : Eval α) : Stateful String σ Fault α := observe (fun _ => x)

def tableMut (table : ℕ) (index : Fin 512) : Stateful String σ Fault ℕ := do
  let value ← t.readValue table index
  if isPresent value then pure (value &&& complement 64 attrMask)
  else throw "Page Not Found"

def setPage (table : ℕ) (index : Fin 512) (phys : ℕ) (attr : PageAttr) :
    Stateful String σ Fault Unit :=
  if phys &&& attrMask ≠ 0 then throw "phys is not aligned"
  else t.writeValue table index (phys ||| attr.value)

def populate (table : ℕ) (index : Fin 512) : Stateful String σ Fault Unit := do
  let value ← t.readValue table index
  if isPresent value then throw "Page is already populate"
  else
    let next ← t.newTable
    t.writeValue table index (next ||| PageAttr.readWriteKernel.value)

def ensurePopulated (table : ℕ) (index : Fin 512) : Stateful String σ Fault Unit := do
  let value ← t.readValue table index
  if isPresent value then pure () else populate t table index

def nextTable (table : ℕ) (index : Fin 512) : Stateful String σ Fault ℕ := do
  ensurePopulated t table index
  tableMut t table index

def mapPage (root virtStart phys : ℕ) (attr : PageAttr) (addr : ℕ) :
    Stateful String σ Fault Unit := do
  let table ← nextTable t root (calcIndex 39 addr)
  let table ← nextTable t table (calcIndex 30 addr)
  let table ← nextTable t table (calcIndex 21 addr)
  let sum ← lift (checkedAdd phys addr)
  let phys ← lift (checkedSub sum virtStart)
  setPage t table (calcIndex 12 addr) phys attr

def createMapping (root virtStart virtEnd phys : ℕ) (attr : PageAttr) :
    Stateful String σ Fault Unit :=
  if virtStart &&& attrMask ≠ 0 then throw "Invalid virt_start"
  else if virtEnd &&& attrMask ≠ 0 then throw "Invalid virt_start"
  else if phys &&& attrMask ≠ 0 then throw "Invalid phys"
  else (stepBy virtStart virtEnd pageSize).forM (mapPage t root virtStart phys attr)

/-- `PML4::new()` and calls on it. -/
def mapAll (calls : List Call) : Stateful String σ Fault ℕ := do
  let root ← t.newTable
  calls.forM (fun c => createMapping t root c.virtStart c.virtEnd c.phys c.attr)
  pure root

/-- `Result::expect`. -/
def expect {α : Type} (x : Stateful String σ Fault α) (message : String) :
    Stateful String σ Fault α := fun s => do
  match ← x s with
  | (.ok a,s) => pure (.ok a,s)
  | (.error e,_) => .error (.panic (expectMessage message e))

def initPaging (fuel : ℕ) (memoryMap : MemoryMapHolder) : Stateful String σ Fault ℕ := do
  let table ← t.newTable
  let endOfMem ← lift (forEach extend fuel memoryMap.iter 0x100000000)
  expect (createMapping t table 0 endOfMem 0 .readWriteKernel)
    "Failed to create initial page mapping"
  pure table

end Program

/-- The memory of whole tables. -/
def wholeTables (boxNew : TableMemory → Option ℕ) : Tables TableMemory :=
  ⟨PageTable.readValue,PageTable.writeValue,PageTable.newTable boxNew⟩

theorem createMapping_eq (boxNew : TableMemory → Option ℕ) (root virtStart virtEnd phys : ℕ)
    (attr : PageAttr) : PageTable.createMapping boxNew root virtStart virtEnd phys attr =
      createMapping (wholeTables boxNew) root virtStart virtEnd phys attr := rfl

theorem mapAll_eq (boxNew : TableMemory → Option ℕ) (calls : List Call) :
    Refinement.mapAll boxNew calls = mapAll (wholeTables boxNew) calls := rfl

theorem expect_eq {α : Type} (x : PageTable.Build α) (message : String) :
    InitPaging.expect x message = expect x message := by
  funext m
  unfold InitPaging.expect expect
  cases x m with
  | error e => rfl
  | ok r =>
    obtain ⟨r,m'⟩ := r
    cases r with
    | error e => rfl
    | ok a => rfl

theorem initPaging_eq (boxNew : TableMemory → Option ℕ) (fuel : ℕ) (map : MemoryMapHolder) :
    InitPaging.initPaging boxNew fuel map = initPaging (wholeTables boxNew) fuel map := by
  unfold InitPaging.initPaging initPaging
  simp only [expect_eq, createMapping_eq]
  rfl

theorem lift_returned {σ α : Type} (x : Eval α) (s s' : σ) (a : α)
    (h : (lift x : Stateful String σ Fault α) s = .ok (.ok a,s')) : x = .ok a := by
  cases x with
  | error e => cases h
  | ok b =>
    cases h
    rfl

section Simulation
variable {σ τ : Type} (R : σ → τ → Prop) (weight : τ → ℕ) (capacity : ℕ) (full : Fault)

/-- Operations that simulate each other on words. -/
structure TablesSim (t : Tables σ) (u : Tables τ) : Prop where
  bounded : ∀ s t, R s t → weight t ≤ capacity
  readValue : ∀ table index,
    Simulates R weight capacity full (t.readValue table index) (u.readValue table index)
  writeValue : ∀ table index value, value < 2^64 →
    Simulates R weight capacity full (t.writeValue table index value)
      (u.writeValue table index value)
  newTable : Simulates R weight capacity full t.newTable u.newTable
  address : ∀ m a m', u.newTable m = .ok (.ok a,m') → a < 2^64

variable {R weight capacity full} (t : Tables σ) (u : Tables τ)
  (h : TablesSim R weight capacity full t u)
include h

theorem sim_lift {α : Type} (x : Eval α) : Simulates R weight capacity full
    (lift x : Stateful String σ Fault α) (lift x) :=
  sim_observe h.bounded _ _ (fun _ _ _ _ hx => hx)

theorem sim_tableMut (table : ℕ) (index : Fin 512) :
    Simulates R weight capacity full (tableMut t table index) (tableMut u table index) := by
  apply sim_bind _ _ _ _ (h.readValue table index)
  intro value _ _ _
  exact sim_ite _ _ _ _ _ (fun _ => sim_pure h.bounded _) (fun _ => sim_throw h.bounded _)

theorem sim_setPage (table : ℕ) (index : Fin 512) (phys : ℕ) (attr : PageAttr)
    (hp : phys < 2^64) :
    Simulates R weight capacity full (setPage t table index phys attr)
      (setPage u table index phys attr) := by
  apply sim_ite
  · exact fun _ => sim_throw h.bounded _
  · intro _
    apply h.writeValue
    apply Nat.or_lt_two_pow hp
    cases attr <;> decide

theorem sim_populate (table : ℕ) (index : Fin 512) :
    Simulates R weight capacity full (populate t table index) (populate u table index) := by
  apply sim_bind _ _ _ _ (h.readValue table index)
  intro value _ _ _
  apply sim_ite
  · exact fun _ => sim_throw h.bounded _
  · intro _
    apply sim_bind _ _ _ _ h.newTable
    intro next m m' hnew
    exact h.writeValue table index _ (Nat.or_lt_two_pow (h.address m next m' hnew) (by decide))

theorem sim_nextTable (table : ℕ) (index : Fin 512) :
    Simulates R weight capacity full (nextTable t table index) (nextTable u table index) := by
  apply sim_bind
  · apply sim_bind _ _ _ _ (h.readValue table index)
    intro value _ _ _
    exact sim_ite _ _ _ _ _ (fun _ => sim_pure h.bounded _)
      (fun _ => sim_populate t u h table index)
  · exact fun _ _ _ _ => sim_tableMut t u h table index

theorem sim_mapPage (root virtStart phys : ℕ) (attr : PageAttr) (addr : ℕ) :
    Simulates R weight capacity full (mapPage t root virtStart phys attr addr)
      (mapPage u root virtStart phys attr addr) := by
  apply sim_bind _ _ _ _ (sim_nextTable t u h root _)
  intro t4 _ _ _
  apply sim_bind _ _ _ _ (sim_nextTable t u h t4 _)
  intro t3 _ _ _
  apply sim_bind _ _ _ _ (sim_nextTable t u h t3 _)
  intro t2 _ _ _
  apply sim_bind _ _ _ _ (sim_lift t u h _)
  intro sum m m' hsum
  apply sim_bind _ _ _ _ (sim_lift t u h _)
  intro frame m1 m1' hframe
  -- both values come from checked arithmetic on words
  obtain ⟨hlt,rfl⟩ := checkedAdd_returned _ _ _ (lift_returned _ m m' sum hsum)
  obtain ⟨-,rfl⟩ := checkedSub_returned _ _ _ (lift_returned _ m1 m1' frame hframe)
  exact sim_setPage t u h t2 _ _ attr (by omega)

theorem sim_createMapping (root virtStart virtEnd phys : ℕ) (attr : PageAttr) :
    Simulates R weight capacity full (createMapping t root virtStart virtEnd phys attr)
      (createMapping u root virtStart virtEnd phys attr) := by
  apply sim_ite
  · exact fun _ => sim_throw h.bounded _
  intro _
  apply sim_ite
  · exact fun _ => sim_throw h.bounded _
  intro _
  apply sim_ite
  · exact fun _ => sim_throw h.bounded _
  intro _
  exact sim_forM h.bounded _ _ _ (fun addr _ => sim_mapPage t u h root virtStart phys attr addr)

theorem sim_mapAll (calls : List Call) :
    Simulates R weight capacity full (mapAll t calls) (mapAll u calls) := by
  apply sim_bind _ _ _ _ h.newTable
  intro root _ _ _
  apply sim_bind
  · exact sim_forM h.bounded _ _ _ (fun c _ => sim_createMapping t u h root _ _ _ _)
  · exact fun _ _ _ _ => sim_pure h.bounded root

omit h in
theorem sim_expect {α : Type} (x : Stateful String σ Fault α) (y : Stateful String τ Fault α)
    (message : String) (hx : Simulates R weight capacity full x y) :
    Simulates R weight capacity full (expect x message) (expect y message) := by
  have hy : ∀ t r t', expect y message t = .ok (r,t') → ∃ a, r = .ok a ∧ y t = .ok (.ok a,t') := by
    intro t r t' hrun
    unfold expect at hrun
    cases hyt : y t with
    | error e =>
      rw [hyt] at hrun
      cases hrun
    | ok q =>
      obtain ⟨q,t1⟩ := q
      rw [hyt] at hrun
      cases q with
      | error e => cases hrun
      | ok a =>
        cases hrun
        exact ⟨a,rfl,rfl⟩
  constructor
  · intro t r t' hrun
    obtain ⟨a,-,hyt⟩ := hy t r t' hrun
    exact hx.grows t _ t' hyt
  · intro s t r t' hst hrun hw
    obtain ⟨a,rfl,hyt⟩ := hy t r t' hrun
    obtain ⟨s',hxs,hst'⟩ := hx.follows s t _ t' hst hyt hw
    refine ⟨s',?_,hst'⟩
    rw [expect, hxs]
    rfl
  · intro s t r t' hst hrun hw
    obtain ⟨a,-,hyt⟩ := hy t r t' hrun
    rw [expect, hx.stops s t _ t' hst hyt hw]
    rfl

theorem sim_initPaging (fuel : ℕ) (map : MemoryMapHolder) :
    Simulates R weight capacity full (initPaging t fuel map) (initPaging u fuel map) := by
  apply sim_bind _ _ _ _ h.newTable
  intro table _ _ _
  apply sim_bind _ _ _ _ (sim_lift t u h _)
  intro endOfMem _ _ _
  apply sim_bind _ _ _ _ (sim_expect _ _ _ (sim_createMapping t u h table 0 endOfMem 0 _))
  intro _ _ _ _
  exact sim_pure h.bounded table

end Simulation

end Wasabi.Paging.TableProgram
