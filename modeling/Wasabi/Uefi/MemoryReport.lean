import Wasabi.Allocator.UsableMemory
import Wasabi.Serial.Console

/-!
# The report on the memory of the machine

The kernel prints the conventional descriptors of the map and their pages in
total. The sum cannot overflow, since the descriptors are disjoint, and the
heap has got all of these pages but page zero and those that are alone.
-/

set_option autoImplicit false

namespace Wasabi.Uefi.MemoryReport
open Wasabi.Rust Wasabi.Outcome Wasabi.ObjectMemory Wasabi.PolledOutput Wasabi.DecimalText
open Wasabi.Serial.Port Wasabi.Serial.Console Wasabi.Uefi.MemoryMap
open Wasabi.Allocator.FirstFit Wasabi.Allocator.BlockList Wasabi.Allocator.Registration
open Wasabi.Allocator.Provide Wasabi.Allocator.Safety Wasabi.Allocator.UsableMemory

/-- The derived format of the type. -/
def typeText : EfiMemoryType → List Char
  | .reserved => "RESERVED".toList
  | .loadedCode => "LOADED_CODE".toList
  | .loadedData => "LOADED_DATA".toList
  | .bootServiceCode => "BOOT_SERVICE_CODE".toList
  | .bootServiceData => "BOOT_SERVICE_DATA".toList
  | .runtimeServicesCode => "RUNTIME_SERVICES_CODE".toList
  | .runtimeServicesData => "RUNTIME_SERVICES_DATA".toList
  | .conventionalMemory => "CONVENTIONAL_MEMORY".toList
  | .unusableMemory => "UNUSABLE_MEMORY".toList
  | .acpiReclaimMemory => "ACPI_RECLAIM_MEMORY".toList
  | .acpiMemoryNvs => "ACPI_MEMORY_NVS".toList
  | .memoryMappedIo => "MEMORY_MAPPED_IO".toList
  | .memoryMappedIoPortSpace => "MEMORY_MAPPED_IO_PORT_SPACE".toList
  | .palCode => "PAL_CODE".toList
  | .persistentMemory => "PERSISTENT_MEMORY".toList

/-- The derived format of a descriptor. -/
def descriptorText (e : EfiMemoryDescriptor) : List Char :=
  "EfiMemoryDescriptor \x7b memory_type: ".toList++typeText e.memoryType++
    ", physical_start: ".toList++decimal e.physicalStart++
    ", virtual_start: ".toList++decimal e.virtualStart++
    ", number_of_pages: ".toList++decimal e.numberOfPages++
    ", attribute: ".toList++decimal e.attributes++" \x7d".toList

/-- The loop of `efi_main` over the map, from a sum of pages on. -/
def sumPages (fuel : ℕ) : ℕ → MemoryMapIterator → ℕ → Prog ℕ
  | 0, _, _ => observe (fun _ => .error .outOfFuel)
  | steps+1, it, total => do
    let (item,it) ← observe (fun _ => it.next)
    match item with
    | none => pure total
    | some e =>
      if e.memoryType ≠ .conventionalMemory then sumPages fuel steps it total
      else do
        let total ← observe (fun _ => checkedAdd total e.numberOfPages)
        println fuel [descriptorText e]
        sumPages fuel steps it total

def totalText (pages mib : ℕ) : List (List Char) :=
  ["Total: ".toList,decimal pages," pages = ".toList,decimal mib," Mib".toList]

def reportMemory (map : MemoryMapHolder) (fuel : ℕ) : Prog Unit := do
  let total ← sumPages fuel fuel map.iter 0
  let size ← observe (fun _ => checkedMul total 4096)
  println fuel (totalText total (size/1024/1024))

/-- The pages of the conventional descriptors. -/
def totalPages (ds : List EfiMemoryDescriptor) : ℕ :=
  ((conventional ds).map EfiMemoryDescriptor.numberOfPages).sum

/-- The pages of a descriptor that are not registered with the heap. -/
def lostPages (d : EfiMemoryDescriptor) : ℕ :=
  if usableSize d ≤ 4096 then d.numberOfPages else if d.physicalStart = 0 then 1 else 0

def reportText (ds : List EfiMemoryDescriptor) : List Char :=
  (conventional ds).flatMap (fun d => descriptorText d++['\n'])++
    ((totalText (totalPages ds) (totalPages ds*4096/1024/1024)).flatten++['\n'])

/-- The same loop over a list. -/
def sumList (fuel : ℕ) : List EfiMemoryDescriptor → ℕ → Prog ℕ
  | [], total => pure total
  | e::ds, total =>
    if e.memoryType ≠ .conventionalMemory then sumList fuel ds total
    else do
      let total ← observe (fun _ => checkedAdd total e.numberOfPages)
      println fuel [descriptorText e]
      sumList fuel ds total

/-- By induction on the descriptors that are left. -/
theorem sumPages_shown (map : MemoryMapHolder) (ds : List EfiMemoryDescriptor) (h : Shows map ds)
    (fuel n k steps total : ℕ) (hn : ds.length = k+n) (hs : n < steps) :
    sumPages fuel steps ⟨map,k*map.descriptorSize⟩ total = sumList fuel (ds.drop k) total := by
  induction n generalizing k steps total with
  | zero =>
    obtain ⟨steps,rfl⟩ : ∃ m, steps = m+1 := ⟨steps-1,by omega⟩
    have hend := next_end map ds h
    rw [Nat.add_zero] at hn
    rw [hn] at hend
    rw [List.drop_of_length_le (by omega)]
    funext bus
    rw [sumPages, run_bind _ _ _ _ _ (observe_ok _ bus _ hend)]
    rfl
  | succ n ih =>
    obtain ⟨steps,rfl⟩ : ∃ m, steps = m+1 := ⟨steps-1,by omega⟩
    have hnext := next_shown map ds h k (by omega)
    have hrest := fun t => ih (k+1) steps t (by omega) (by omega)
    rw [List.drop_eq_getElem_cons (by omega)]
    funext bus
    rw [sumPages, run_bind _ _ _ _ _ (observe_ok _ bus _ hnext), sumList]
    simp only [hrest]

theorem conventional_cons (e : EfiMemoryDescriptor) (ds : List EfiMemoryDescriptor) :
    conventional (e::ds) =
      if e.memoryType = .conventionalMemory then e::conventional ds else conventional ds := by
  rw [conventional, List.filter_cons]
  simp only [decide_eq_true_eq]
  rfl

theorem sends_sum (ds : List EfiMemoryDescriptor) (total : ℕ)
    (h : total+totalPages ds < 2^64) :
    Sends (fun fuel => sumList fuel ds total)
      ((conventional ds).flatMap (fun d => descriptorText d++['\n']))
      (.ok (total+totalPages ds)) := by
  induction ds generalizing total with
  | nil => exact sends_pure total
  | cons e ds ih =>
    by_cases hty : e.memoryType = .conventionalMemory
    · have hcons : conventional (e::ds) = e::conventional ds := by
        rw [conventional_cons, if_pos hty]
      have hpages : totalPages (e::ds) = e.numberOfPages+totalPages ds := by
        rw [totalPages, hcons, List.map_cons, List.sum_cons, totalPages]
      rw [hpages, ← Nat.add_assoc] at h ⊢
      have hadd := checkedAdd_ok total e.numberOfPages (by omega)
      have hline := sends_println [descriptorText e]
      rw [List.flatten_singleton] at hline
      have hrest := sends_bind _ (fun fuel t => println fuel [descriptorText e] >>= fun _ =>
        sumList fuel ds t) _ _ _ _ (sends_observe _ _ hadd)
        (sends_seq _ _ _ _ _ hline (ih (total+e.numberOfPages) h))
      rw [hcons, List.flatMap_cons]
      simp only [sumList, ne_eq, hty, not_true_eq_false, if_false]
      exact hrest
    · have hcons : conventional (e::ds) = conventional ds := by
        rw [conventional_cons, if_neg hty]
      have hpages : totalPages (e::ds) = totalPages ds := by rw [totalPages, hcons, totalPages]
      rw [hpages] at h ⊢
      rw [hcons]
      simp only [sumList, ne_eq, hty, not_false_eq_true, if_true]
      exact ih total h

theorem total_bound (ds : List EfiMemoryDescriptor) (h : ConventionalContract ds) :
    totalPages ds*4096 < 2^64 := by
  have hlengths := Tiling.disjoint_lengths ((conventional ds).map range) (2^64-1)
    (by
      intro r hr
      obtain ⟨d,hd,rfl⟩ := List.mem_map.mp hr
      have hb := h.below d hd
      omega)
    (List.pairwise_map.mpr (h.disjoint.imp fun hd _ hx => Set.disjoint_left.mp hd hx))
  have hsame : (conventional ds).map ((fun r : ℕ × ℕ => r.2-r.1) ∘ range) =
      (conventional ds).map (fun d => d.numberOfPages*4096) :=
    List.map_congr_left (fun d _ => Nat.add_sub_cancel_left d.physicalStart _)
  rw [List.map_map, hsame, List.sum_map_mul_right] at hlengths
  rw [totalPages]
  omega

theorem descriptor_pages (d : EfiMemoryDescriptor) (ha : 4096 ∣ d.physicalStart) :
    d.numberOfPages*4096 =
      (if 4096 < usableSize d then usableSize d else 0)+lostPages d*4096 ∧ lostPages d ≤ 2 := by
  unfold lostPages usableSize usableStart range
  simp only
  split_ifs
  all_goals omega

/-- The heap gets all pages but the lost ones. -/
theorem pages_account (ds : List EfiMemoryDescriptor)
    (h : ∀ d ∈ conventional ds, 4096 ∣ d.physicalStart) :
    totalPages ds*4096 = ((usableBlocks ds).map Block.size).sum+
      ((conventional ds).map lostPages).sum*4096 := by
  rw [totalPages, usableBlocks, List.map_reverse, List.sum_reverse, List.map_map]
  revert h
  generalize conventional ds = cs
  intro h
  induction cs with
  | nil => rfl
  | cons d cs ih =>
    have hrest := ih (fun e he => h e (List.mem_cons_of_mem d he))
    obtain ⟨hd,-⟩ := descriptor_pages d (h d List.mem_cons_self)
    by_cases hs : 4096 < usableSize d
    · rw [if_pos hs] at hd
      rw [List.filter_cons_of_pos (by simpa using hs)]
      rw [List.map_cons, List.map_cons, List.map_cons, List.sum_cons, List.sum_cons, List.sum_cons,
        Nat.add_mul, Nat.add_mul, hd, hrest]
      change usableSize d+_+_ = usableSize d+_+_
      ring
    · rw [if_neg hs] at hd
      rw [List.filter_cons_of_neg (by simpa using hs)]
      rw [List.map_cons, List.map_cons, List.sum_cons, List.sum_cons, Nat.add_mul, Nat.add_mul, hd,
        hrest]
      ring

theorem sends_memory (map : MemoryMapHolder) (ds : List EfiMemoryDescriptor) (hs : Shows map ds)
    (hc : ConventionalContract ds) : Sends (reportMemory map) (reportText ds) (.ok ()) := by
  have hbound := total_bound ds hc
  have hsum := sends_sum ds 0 (by omega)
  rw [Nat.zero_add] at hsum
  have hlast := sends_bind _ (fun fuel size => println fuel (totalText (totalPages ds)
    (size/1024/1024))) _ _ _ _ (sends_observe _ _ (checkedMul_ok _ _ hbound)) (sends_println _)
  have hall := sends_bind _ (fun fuel total => (do
    let size ← observe (fun _ => checkedMul total 4096)
    println fuel (totalText total (size/1024/1024)) : Prog Unit)) _ _ _ _ hsum hlast
  refine sends_congr _ _ (ds.length+1) ?_ _ _ hall
  intro fuel hfuel
  have hloop := sumPages_shown map ds hs fuel ds.length 0 fuel 0 (by omega) (by omega)
  rw [Nat.zero_mul, List.drop_zero] at hloop
  rw [reportMemory, MemoryMapHolder.iter, hloop]

/-- The report on a map of disjoint regions, and what the heap has got of them. -/
theorem memory_report (map : MemoryMapHolder) (hmap : UefiContract map)
    (hconv : ConventionalContract (descriptors map)) (memory : HeaderMemory)
    (incoming : ℕ → UInt8) (hfair : Fair incoming) :
    ∃ N bus heap, (∀ fuel ≥ N, reportMemory map fuel ⟨incoming,[]⟩ = .ok (.ok (),bus) ∧
        initWithMmap fuel ⟨memory,none⟩ map = .ok heap) ∧
      received 0x3f8 bus.trace =
        (reportText (descriptors map)).map (fun c => UInt8.ofNat c.toNat) ∧
      Chain heap.memory heap.firstHeader (usableBlocks (descriptors map)) ∧
      totalPages (descriptors map)*4096 =
        ((usableBlocks (descriptors map)).map Block.size).sum+
          ((conventional (descriptors map)).map lostPages).sum*4096 ∧
      ∀ d ∈ conventional (descriptors map), lostPages d ≤ 2 := by
  have hs := contract_shows map hmap
  obtain ⟨N,bus,hrun,hlog⟩ := sends_received _ _ _ (sends_memory map _ hs hconv) incoming hfair
  obtain ⟨heap,hinit,hchain⟩ := init_registers map _ hs hconv memory
    ((descriptors map).length+1) (by omega)
  rw [initWithMmap, forEach_shown map _ hs _ _ (by omega)] at hinit
  rw [registered_usable _ hconv] at hchain
  refine ⟨max N ((descriptors map).length+1),bus,heap,?_,hlog,hchain,
    pages_account _ hconv.aligned,fun d hd => (descriptor_pages d (hconv.aligned d hd)).2⟩
  intro fuel hfuel
  refine ⟨hrun fuel (by omega),?_⟩
  rw [initWithMmap, forEach_shown map _ hs _ _ (by omega)]
  exact hinit

theorem memory_report_mixed :
    ∃ N bus heap, (∀ fuel ≥ N, reportMemory mixedMap fuel ⟨fun _ => 0x20,[]⟩ = .ok (.ok (),bus) ∧
        initWithMmap fuel ⟨fun _ => .raw 0,none⟩ mixedMap = .ok heap) ∧
      received 0x3f8 bus.trace =
        (reportText (descriptors mixedMap)).map (fun c => UInt8.ofNat c.toNat) ∧
      Chain heap.memory heap.firstHeader (usableBlocks (descriptors mixedMap)) ∧
      totalPages (descriptors mixedMap)*4096 =
        ((usableBlocks (descriptors mixedMap)).map Block.size).sum+
          ((conventional (descriptors mixedMap)).map lostPages).sum*4096 ∧
      ∀ d ∈ conventional (descriptors mixedMap), lostPages d ≤ 2 :=
  memory_report mixedMap mixedMap_contract mixedMap_conventional _ _ (fun _ => ⟨0,by decide⟩)

end Wasabi.Uefi.MemoryReport
