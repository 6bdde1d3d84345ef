import Wasabi.Paging.Calls

/-!
# How a call can fail

The alignment tests in front of the loop are the only way to an `Err`, and
they come before any write. Apart from them the address arithmetic may panic:
the sum of the frame base and the address is taken before the difference.
-/

set_option autoImplicit false

namespace Wasabi.Paging.Failure
open Wasabi.Rust Wasabi.WordBits Wasabi.Outcome Wasabi.Paging.PageTable Wasabi.Paging.Mapping
open Wasabi.Paging.Refinement Wasabi.Paging.Calls

/-- Both `?` exits on the way to the next table are passed. -/
def Descends (boxNew : TableMemory → Option ℕ) (table : ℕ) (index : Fin 512) (next : ℕ)
    (m m' : TableMemory) : Prop :=
  ∃ m1, ensurePopulated boxNew table index m = .ok (.ok (),m1) ∧
    tableMut table index m1 = .ok (.ok next,m')

/-- All seven `?` exits of one turn of the loop are passed. -/
def Completes (boxNew : TableMemory → Option ℕ) (root : ℕ) (c : Call) (addr : ℕ)
    (m m' : TableMemory) : Prop :=
  ∃ a3 a2 a1 m1 m2 m3, Descends boxNew root (calcIndex 39 addr) a3 m m1 ∧
    Descends boxNew a3 (calcIndex 30 addr) a2 m1 m2 ∧
    Descends boxNew a2 (calcIndex 21 addr) a1 m2 m3 ∧
    setPage a1 (calcIndex 12 addr) (c.phys+addr-c.virtStart) c.attr m3 = .ok (.ok (),m')

theorem lift_returned {α : Type} (x : Eval α) (a : α) (m m' : TableMemory)
    (h : lift x m = .ok (.ok a,m')) : x = .ok a ∧ m' = m := by
  cases x with
  | error e => cases h
  | ok b =>
    cases h
    exact ⟨rfl,rfl⟩

/-- A turn of the loop that returned passed its exits and its checked sum. -/
theorem turn_completes (boxNew : TableMemory → Option ℕ) (root : ℕ) (c : Call) (addr : ℕ)
    (m m' : TableMemory)
    (h : mapPage boxNew root c.virtStart c.phys c.attr addr m = .ok (.ok (),m')) :
    c.phys+addr < 2^64 ∧ Completes boxNew root c addr m m' := by
  obtain ⟨a3,m1,h3,h⟩ := bind_returned _ _ _ _ _ h
  obtain ⟨a2,m2,h2,h⟩ := bind_returned _ _ _ _ _ h
  obtain ⟨a1,m3,h1,h⟩ := bind_returned _ _ _ _ _ h
  obtain ⟨sum,m4,hsum,h⟩ := bind_returned _ _ _ _ _ h
  obtain ⟨frame,m5,hframe,h⟩ := bind_returned _ _ _ _ _ h
  obtain ⟨hs,rfl⟩ := lift_returned _ _ _ _ hsum
  obtain ⟨hf,rfl⟩ := lift_returned _ _ _ _ hframe
  obtain ⟨hlt,rfl⟩ := checkedAdd_returned _ _ _ hs
  obtain ⟨-,rfl⟩ := checkedSub_returned _ _ _ hf
  obtain ⟨_,n3,he3,ht3⟩ := bind_returned _ _ _ _ _ h3
  obtain ⟨_,n2,he2,ht2⟩ := bind_returned _ _ _ _ _ h2
  obtain ⟨_,n1,he1,ht1⟩ := bind_returned _ _ _ _ _ h1
  exact ⟨hlt,a3,a2,a1,m1,m2,_,⟨n3,he3,ht3⟩,⟨n2,he2,ht2⟩,⟨n1,he1,ht1⟩,h⟩

theorem aligned_iff (c : Call) : ¬ Aligned c ↔
    c.virtStart%4096 ≠ 0 ∨ c.virtEnd%4096 ≠ 0 ∨ c.phys%4096 ≠ 0 := by
  constructor
  · intro h
    by_contra hn
    exact h ⟨by omega,by omega,by omega⟩
  · rintro h ⟨h1,h2,h3⟩
    omega

section Call
variable (boxNew : TableMemory → Option ℕ) (hbox : FreshBoxes boxNew) (base : TableMemory)
  (root : ℕ) (m : TableMemory) (hr : Reachable boxNew base root m) (c : Call)
include hbox hr

/-- With enough memory and without overflow an aligned call returns `Ok`. -/
theorem aligned_returns (hc : Aligned c) (hsum : ∀ v ∈ pages c, c.phys+v < 2^64)
    (hmem : callMapping boxNew root c m ≠ .error .outOfMemory) :
    ∃ m', callMapping boxNew root c m = .ok (.ok (),m') ∧ PageTree base m' root ∧
      Remaps root (entryOf c) m (pages c) m' := by
  have ht := reachable_tree boxNew hbox base root m hr
  rcases call_effect boxNew base root m c hbox ht hc with ⟨e,he,hrun⟩ | ⟨_,m',hrun,hp⟩
  · rcases he with ⟨rfl,-⟩ | ⟨v,hv,-,hover⟩
    · exact absurd hrun hmem
    · exact absurd (hsum v hv) (by omega)
  · exact ⟨m',hrun,hp⟩

/-- A call fails before it writes anything or not at all. -/
theorem call_atomic (hsum : c.phys+c.virtEnd < 2^64)
    (hmem : callMapping boxNew root c m ≠ .error .outOfMemory) :
    ∃ result m', callMapping boxNew root c m = .ok (result,m') ∧
      ((∃ message, result = .error message) ↔
        c.virtStart%4096 ≠ 0 ∨ c.virtEnd%4096 ≠ 0 ∨ c.phys%4096 ≠ 0) ∧
      ((∃ message, result = .error message) → m' = m) ∧
      (result = .ok () → ∀ done addr rest, pages c = done++addr::rest → ∃ m1 m2,
        done.forM (mapPage boxNew root c.virtStart c.phys c.attr) m = .ok (.ok (),m1) ∧
        Completes boxNew root c addr m1 m2) := by
  rw [← aligned_iff]
  by_cases hc : Aligned c
  · obtain ⟨m',hrun,-,-⟩ := aligned_returns boxNew hbox base root m hr c hc
      (fun v hv => by have hb := (pages_bounds c hc v hv).2.2; omega) hmem
    refine ⟨.ok (),m',hrun,by simp [hc],?_,?_⟩
    · rintro ⟨message,h⟩
      cases h
    · intro _ done addr rest hp
      rw [call_loop boxNew root c hc, hp] at hrun
      obtain ⟨m1,m2,h1,h2⟩ := forM_returned _ done rest addr m m' hrun
      exact ⟨m1,m2,h1,(turn_completes boxNew root c addr m1 m2 h2).2⟩
  · obtain ⟨message,hrun⟩ := call_rejects boxNew root m c hc
    refine ⟨.error message,m,hrun,by simp [hc],fun _ => rfl,?_⟩
    intro h
    cases h

end Call

/-- The memory after `PML4::new()` on an empty one. -/
def freshTables : TableMemory := TableTree.grow (fun _ => none) 0x100000 0

theorem freshTables_reachable : Reachable firstFree (fun _ => none) 0x100000 freshTables :=
  .new freshTables rfl

/-- Three pages on both sides of a table boundary. -/
def straddling : Call := ⟨0x1ff000,0x202000,0x5000,.readWriteKernel⟩

theorem straddling_runs :
    callMapping firstFree 0x100000 straddling freshTables ≠ .error .outOfMemory :=
  ok_not_fault _ _ (by decide +kernel)

theorem call_atomic_straddling :
    ∃ result m', callMapping firstFree 0x100000 straddling freshTables = .ok (result,m') ∧
      ((∃ message, result = .error message) ↔
        0x1ff000%4096 ≠ 0 ∨ 0x202000%4096 ≠ 0 ∨ 0x5000%4096 ≠ 0) ∧
      ((∃ message, result = .error message) → m' = freshTables) ∧
      (result = .ok () → ∀ done addr rest, pages straddling = done++addr::rest → ∃ m1 m2,
        done.forM (mapPage firstFree 0x100000 0x1ff000 0x5000 .readWriteKernel) freshTables =
          .ok (.ok (),m1) ∧ Completes firstFree 0x100000 straddling addr m1 m2) :=
  call_atomic firstFree firstFree_fresh _ 0x100000 freshTables freshTables_reachable straddling
    (by decide) straddling_runs

/-- The sum is taken for the last page too, so it must fit up to the end of
the virtual range, not only up to the end of the physical one. -/
theorem sums_fit_iff (c : Call) (hc : Aligned c) : (∀ v ∈ pages c, c.phys+v < 2^64) ↔
    c.virtEnd ≤ c.virtStart ∨ c.phys+c.virtEnd ≤ 2^64 := by
  obtain ⟨h1,h2,h3⟩ := hc
  constructor
  · intro h
    by_contra hn
    have hlast := h (c.virtEnd-4096) ((mem_pages c ⟨h1,h2,h3⟩ _ (by omega)).mpr (by omega))
    omega
  · intro h v hv
    obtain ⟨-,hl,hr⟩ := pages_bounds c ⟨h1,h2,h3⟩ v hv
    omega

/-- For aligned arguments the arithmetic as written does not overflow exactly
if the range is empty or its end and the frame base together stay in a word;
else the debug build panics. -/
theorem no_overflow_iff (c : Call) (hc : Aligned c) :
    ((∀ v ∈ pages c, ∃ sum frame, checkedAdd c.phys v = .ok sum ∧
        checkedSub sum c.virtStart = .ok frame) ↔
      c.virtEnd ≤ c.virtStart ∨ c.phys+c.virtEnd ≤ 2^64) ∧
    ∀ boxNew base root m, FreshBoxes boxNew → Reachable boxNew base root m →
      callMapping boxNew root c m ≠ .error .outOfMemory →
      ((∃ m', callMapping boxNew root c m = .ok (.ok (),m')) ↔
        c.virtEnd ≤ c.virtStart ∨ c.phys+c.virtEnd ≤ 2^64) ∧
      (¬ (c.virtEnd ≤ c.virtStart ∨ c.phys+c.virtEnd ≤ 2^64) →
        callMapping boxNew root c m = .error (.panic "attempt to add with overflow")) := by
  rw [← sums_fit_iff c hc]
  refine ⟨⟨?_,?_⟩,?_⟩
  · intro h v hv
    obtain ⟨sum,frame,hadd,-⟩ := h v hv
    exact (checkedAdd_returned _ _ _ hadd).1
  · intro h v hv
    have hle := (pages_bounds c hc v hv).2.1
    exact ⟨_,_,checkedAdd_ok _ _ (h v hv),checkedSub_ok _ _ (by omega)⟩
  · intro boxNew base root m hbox hr hmem
    have hback : (∃ m', callMapping boxNew root c m = .ok (.ok (),m')) →
        ∀ v ∈ pages c, c.phys+v < 2^64 := by
      rintro ⟨m',hrun⟩ v hv
      obtain ⟨done,rest,hp⟩ := List.append_of_mem hv
      rw [call_loop boxNew root c hc, hp] at hrun
      obtain ⟨m1,m2,-,h2⟩ := forM_returned _ done rest v m m' hrun
      exact (turn_completes boxNew root c v m1 m2 h2).1
    refine ⟨⟨hback,?_⟩,?_⟩
    · intro h
      obtain ⟨m',hrun,-⟩ := aligned_returns boxNew hbox base root m hr c hc h hmem
      exact ⟨m',hrun⟩
    · intro hn
      have ht := reachable_tree boxNew hbox base root m hr
      rcases call_effect boxNew base root m c hbox ht hc with ⟨e,he,hrun⟩ | ⟨_,m',hrun,-⟩
      · rcases he with ⟨rfl,-⟩ | ⟨v,-,rfl,-⟩
        · exact absurd hrun hmem
        · exact hrun
      · exact absurd (hback ⟨m',hrun⟩) hn

theorem no_overflow_iff_straddling :
    ((∀ v ∈ pages straddling, ∃ sum frame, checkedAdd 0x5000 v = .ok sum ∧
        checkedSub sum 0x1ff000 = .ok frame) ↔ 0x202000 ≤ 0x1ff000 ∨ 0x5000+0x202000 ≤ 2^64) ∧
    ∀ boxNew base root m, FreshBoxes boxNew → Reachable boxNew base root m →
      callMapping boxNew root straddling m ≠ .error .outOfMemory →
      ((∃ m', callMapping boxNew root straddling m = .ok (.ok (),m')) ↔
        0x202000 ≤ 0x1ff000 ∨ 0x5000+0x202000 ≤ 2^64) ∧
      (¬ (0x202000 ≤ 0x1ff000 ∨ 0x5000+0x202000 ≤ 2^64) →
        callMapping boxNew root straddling m = .error (.panic "attempt to add with overflow")) :=
  no_overflow_iff straddling (by decide)

/-- The first page of the kernel's half of the address space. -/
def higherHalf : Call := ⟨0xFFFFFFFF80000000,0xFFFFFFFF80001000,0x80000000,.readWriteKernel⟩

theorem higher_half_overflows : Aligned higherHalf ∧ higherHalf.virtStart ≤ higherHalf.virtEnd ∧
    higherHalf.phys+(higherHalf.virtEnd-higherHalf.virtStart) < 2^64 ∧
    higherHalf.virtStart ∈ pages higherHalf ∧
    checkedAdd higherHalf.phys higherHalf.virtStart =
      .error (.panic "attempt to add with overflow") ∧
    callMapping firstFree 0x100000 higherHalf freshTables =
      .error (.panic "attempt to add with overflow") := by
  refine ⟨by decide,by decide,by decide,by decide,by decide,?_⟩
  rfl

end Wasabi.Paging.Failure
