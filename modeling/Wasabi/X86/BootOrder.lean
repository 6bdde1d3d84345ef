import Wasabi.X86.Exceptions
import Wasabi.Paging.HeapBoot

/-!
# The descriptor tables behind the switch

`efi_main` installs the exception tables first and the page tables later, and
both come from the one heap. From the switch on the processor looks up an
interrupt at virtual addresses. It finds the same tables and the same stacks,
because what is allocated is mapped to itself.
-/

set_option autoImplicit false

namespace Wasabi.X86.BootOrder
open Wasabi.Uefi.Exit (wideMap wideMap_descriptors wideMap_contract)
open Wasabi.ObjectMemory Wasabi.Tiling Wasabi.Uefi.MemoryMap
open Wasabi.Paging.InitPaging Wasabi.Paging.HeapTables Wasabi.Paging.HeapMapping
open Wasabi.Paging.HeapBoot
open Wasabi.Paging (TableProgram.initPaging)
open Wasabi.Allocator.FirstFit Wasabi.Allocator.Provide Wasabi.Allocator.BlockList
open Wasabi.Allocator.Registration Wasabi.Allocator.Runs Wasabi.Allocator.Safety
open Wasabi.Allocator.Boxes Wasabi.Allocator.PageSupply
open Wasabi.X86.Segmentation Wasabi.X86.Exceptions

/-- Memory as the processor sees it under the tables at `cr3`. There is no
byte at an address without a translation. -/
def seen (cr3 : ℕ) (m : HeaderMemory) : HeaderMemory := fun x =>
  match translate (tableView m) cr3 x with
  | some y => m y
  | none => .part ⟨none,0,false,0⟩ 0

def behind (cr3 : ℕ) (s : Client) : Client :=
  {s with heap := {s.heap with memory := seen cr3 s.heap.memory}}

theorem behind_live (cr3 : ℕ) (s : Client) : (behind cr3 s).live = s.live := by
  simp only [behind]

theorem behind_memory (cr3 : ℕ) (s : Client) :
    (behind cr3 s).heap.memory = seen cr3 s.heap.memory := by
  simp only [behind]

theorem seen_mapped (cr3 : ℕ) (m : HeaderMemory) (x y : ℕ)
    (h : translate (tableView m) cr3 x = some y) : seen cr3 m x = m y := by
  unfold seen
  rw [h]

theorem seen_live (ds : List EfiMemoryDescriptor) (s : Client) (cr3 top : ℕ)
    (h : InPlace ds s cr3 top) (a : Allocation) (ha : a ∈ s.live) (x : ℕ) (hx : x ∈ userBytes a) :
    seen cr3 s.heap.memory x = s.heap.memory x :=
  seen_mapped cr3 s.heap.memory x x (h.live a ha x hx)

/-- In any reachable state of the heap: behind `init_exceptions`, whatever the
handlers and other clients do, and behind the switch to the tables of
`init_paging`, every vector is delivered as before, now and in later states. -/
theorem boot_vectored (map : MemoryMapHolder) (hmap : UefiContract map)
    (hconv : ConventionalContract (descriptors map)) (hds : LowerHalf (descriptors map))
    (memory : HeaderMemory) (ops between later : List Op) (entry : EntryPoints) (cpu : Cpu)
    (fuel : ℕ) (hf : (descriptors map).length+2*(ops.length+between.length+later.length+
      registeredBytes (descriptors map))+40 < fuel) :
    ∃ s bs, run fuel map memory ops = .ok s ∧ Chain s.heap.memory s.heap.firstHeader bs ∧
      ∀ ps bs1, fits exceptionLayouts bs = some (ps,bs1) →
        ∃ k, initExceptions fuel entry ⟨s,cpu⟩ = .ok k ∧
          (Respects fuel ps k.client between → ∃ s1 bs2, runFrom fuel k.client between = .ok s1 ∧
            Chain s1.heap.memory s1.heap.firstHeader bs2 ∧ Vectored entry ps k.cpu s1 ∧
            (bootTables (endOfMem (descriptors map) 0x100000000) ≤ pageYields bs2 →
              ∃ (cr3 : ℕ) (s2 : Client) (tables : List ℕ),
              TableProgram.initPaging (heapTables fuel) fuel map s1 = .ok (.ok cr3,s2) ∧
              s2.live = tables.map pageAt++s1.live ∧
              tables.length = bootTables (endOfMem (descriptors map) 0x100000000) ∧
              cr3 ∈ tables ∧
              InPlace (descriptors map) s2 cr3 (endOfMem (descriptors map) 0x100000000) ∧
              Vectored entry ps k.cpu (behind cr3 s2) ∧
              (Respects fuel ps s2 later → Spares fuel (tables.map pageAt) s2 later →
                ∃ s3, runFrom fuel s2 later = .ok s3 ∧
                InPlace (descriptors map) s3 cr3 (endOfMem (descriptors map) 0x100000000) ∧
                Vectored entry ps k.cpu (behind cr3 s3)))) := by
  have hap := registered_apart _ hconv
  have hs := contract_shows map hmap
  have hb : ∀ r ∈ registeredRegions (descriptors map), r.2 < 2^64 :=
    fun r hr => (registered_ok _ hconv r hr).1.bound
  obtain ⟨s,bs,hrun,hi,hlen⟩ := run_inv map _ hs hconv memory ops fuel (by omega)
  obtain ⟨-,hroom⟩ := exceptions_run _ s bs hi hap hb entry cpu between fuel (by omega)
  refine ⟨s,bs,hrun,hi.chain,?_⟩
  intro ps bs1 hfit
  obtain ⟨k,hk,-,hready,-,hbetween⟩ := hroom ps bs1 hfit
  have hlen1 := ready_blocks _ s bs entry ps bs1 k hready
  refine ⟨k,hk,?_⟩
  intro hr
  obtain ⟨s1,bs2,hrun1,hi1,hlen2,hlive1,hsame1,hvec1⟩ := hbetween hr
  have hsupply := yields_registered _ s1 bs2 hi1
  obtain ⟨-,henough⟩ := boot_run _ hds map hs hap s1 bs2 hi1 later fuel (by omega) (by omega)
  refine ⟨s1,bs2,hrun1,hi1.chain,hvec1,?_⟩
  intro hpages
  obtain ⟨cr3,s2,tables,bs3,hpaging,hi2,hlen3,hlive2,hcount,hroot,hkept2,-,hplace,hlater⟩ :=
    henough hpages
  have hold : ∀ a ∈ exceptionBoxes ps, a ∈ s2.live := by
    intro a ha
    rw [hlive2]
    exact List.mem_append_right _ (hlive1 a ha)
  have hsame2 : ∀ a ∈ (exceptionBoxes ps).drop 8, ∀ x ∈ userBytes a,
      s2.heap.memory x = k.memory x := by
    intro a ha x hx
    rw [hkept2 a (hlive1 a (List.mem_of_mem_drop ha)) x hx, hsame1 a ha x hx]
  refine ⟨cr3,s2,tables,hpaging,hlive2,hcount,hroot,hplace,?_,?_⟩
  · apply ready_vectored _ s bs entry ps bs1 k hready hb (behind cr3 s2)
      (by rw [behind_live]; exact hold)
    intro a ha x hx
    rw [behind_memory, seen_live _ s2 cr3 _ hplace a (hold a (List.mem_of_mem_drop ha)) x hx,
      hsame2 a ha x hx]
  · intro hr2 hsp
    obtain ⟨s3,bs4,hrun3,hi3,hplace3⟩ := hlater hsp
    obtain ⟨s3',-,hrun3',-,-,hlive3,hsame3⟩ := respects_run _ hap ps s2 bs3 hi2 hold later fuel
      (by omega) hr2
    obtain rfl : s3' = s3 := by
      rw [hrun3] at hrun3'
      exact (Except.ok.inj hrun3').symm
    refine ⟨s3',hrun3,hplace3,?_⟩
    apply ready_vectored _ s bs entry ps bs1 k hready hb (behind cr3 s3')
      (by rw [behind_live]; exact hlive3)
    intro a ha x hx
    rw [behind_memory, seen_live _ s3' cr3 _ hplace3 a (hlive3 a (List.mem_of_mem_drop ha)) x hx,
      hsame3 a ha x hx, hsame2 a ha x hx]

theorem boot_vectored_wide :
    ∃ s bs, run (2^42) wideMap (fun _ => .raw 0) [] = .ok s ∧
      Chain s.heap.memory s.heap.firstHeader bs ∧
      ∀ ps bs1, fits exceptionLayouts bs = some (ps,bs1) →
        ∃ k, initExceptions (2^42) sampleEntries ⟨s,sampleCpu⟩ = .ok k ∧
          (Respects (2^42) ps k.client [.poke 3 8 1] → ∃ s1 bs2,
            runFrom (2^42) k.client [.poke 3 8 1] = .ok s1 ∧
            Chain s1.heap.memory s1.heap.firstHeader bs2 ∧ Vectored sampleEntries ps k.cpu s1 ∧
            (bootTables (endOfMem (descriptors wideMap) 0x100000000) ≤ pageYields bs2 →
              ∃ (cr3 : ℕ) (s2 : Client) (tables : List ℕ),
              TableProgram.initPaging (heapTables (2^42)) (2^42) wideMap s1 = .ok (.ok cr3,s2) ∧
              s2.live = tables.map pageAt++s1.live ∧
              tables.length = bootTables (endOfMem (descriptors wideMap) 0x100000000) ∧
              cr3 ∈ tables ∧
              InPlace (descriptors wideMap) s2 cr3
                (endOfMem (descriptors wideMap) 0x100000000) ∧
              Vectored sampleEntries ps k.cpu (behind cr3 s2) ∧
              (Respects (2^42) ps s2 [.alloc (layout 8 3 (by decide))] →
                Spares (2^42) (tables.map pageAt) s2 [.alloc (layout 8 3 (by decide))] →
                ∃ s3, runFrom (2^42) s2 [.alloc (layout 8 3 (by decide))] = .ok s3 ∧
                InPlace (descriptors wideMap) s3 cr3
                  (endOfMem (descriptors wideMap) 0x100000000) ∧
                Vectored sampleEntries ps k.cpu (behind cr3 s3)))) := by
  apply boot_vectored wideMap wideMap_contract wideMap_conventional wideMap_lowerHalf
  rw [wideMap_descriptors]
  decide

end Wasabi.X86.BootOrder
