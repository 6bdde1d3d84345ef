import Wasabi.Allocator.Runs
import Wasabi.Uefi.Exit

/-!
# What every client run keeps

The allocator starts from any map that meets the contract, on memory with any
contents. After any operations of a client, its results are usable and apart,
and the headers partition the registered regions into blocks that only ever
become smaller.
-/

set_option autoImplicit false

namespace Wasabi.Allocator.Safety
open Wasabi.Rust Wasabi.Tiling Wasabi.Uefi.MemoryMap Wasabi.Uefi.Encoding
open Wasabi.Uefi.BootServices (fill)
open Wasabi.Uefi.Exit (oneRegion conventionalPages wideMap wideMap_descriptors fill_shows)
open Wasabi.Allocator.FirstFit Wasabi.Allocator.Provide
open Wasabi.Allocator.BlockList Wasabi.Allocator.Registration Wasabi.Allocator.Runs

/-- The holder after a boot on a machine with one region of two pages. -/
def smallMap : MemoryMapHolder := fill ⟨oneRegion,1⟩ MemoryMapHolder.new

theorem smallMap_shows : Shows smallMap oneRegion.descriptors := fill_shows _ _ (by decide)

theorem smallMap_contract : UefiContract smallMap := shows_contract _ _ smallMap_shows (by decide)

theorem smallMap_descriptors : descriptors smallMap = [conventionalPages 0x1000 2] := by
  rw [shows_descriptors _ _ smallMap_shows, oneRegion, padded_descriptors]

theorem smallMap_conventional : ConventionalContract (descriptors smallMap) := by
  rw [smallMap_descriptors]
  exact ⟨by decide,by decide,List.pairwise_singleton _ _⟩

/-- A map with page zero, a descriptor of another type, one that is too small,
and one in the middle of the memory. -/
def mixedDescriptors : List EfiMemoryDescriptor :=
  [conventionalPages 0 3,⟨.loadedData,0x3000,0,5,0xf⟩,conventionalPages 0x8000 1,
    conventionalPages 0x100000 16]

def mixedRegions : FirmwareMap := .padded mixedDescriptors (by decide)

def mixedMap : MemoryMapHolder := fill ⟨mixedRegions,1⟩ MemoryMapHolder.new

theorem mixedMap_shows : Shows mixedMap mixedRegions.descriptors := by
  have hlen : mixedRegions.bytes.length = mixedRegions.entries.length*48 :=
    entries_length _ _ mixedRegions.stride
  exact fill_shows _ _ (hlen.trans_le (by decide))

theorem mixedMap_contract : UefiContract mixedMap := shows_contract _ _ mixedMap_shows (by decide)

theorem mixedMap_descriptors : descriptors mixedMap = mixedDescriptors := by
  rw [shows_descriptors _ _ mixedMap_shows, mixedRegions, padded_descriptors]

theorem mixedMap_conventional : ConventionalContract (descriptors mixedMap) := by
  rw [mixedMap_descriptors]
  refine ⟨by decide,by decide,?_⟩
  have hsorted : (conventional mixedDescriptors).Pairwise (fun d e => (range d).2 ≤ (range e).1) :=
    by decide
  exact hsorted.imp (fun hle => Set.disjoint_left.mpr
    (fun x hx hy => absurd (hx.2.trans_le hle) (not_lt.mpr hy.1)))

theorem wideMap_conventional : ConventionalContract (descriptors wideMap) := by
  rw [wideMap_descriptors]
  exact ⟨by decide,by decide,List.pairwise_singleton _ _⟩

theorem wideMap_regions :
    registeredRegions (descriptors wideMap) = [(0x200000000,0x10200000000)] := by
  rw [wideMap_descriptors]
  decide

def layout (size k : ℕ) (h : size+2^k ≤ isizeMax+1) : Layout := ⟨size,2^k,⟨k,rfl⟩,h⟩

def isPoke : Op → Bool
  | .poke _ _ _ => true
  | _ => false

/-- What a client relies on in a state whose headers show `blocks`. -/
structure Safe (ds : List EfiMemoryDescriptor) (s : Client) (blocks : List Block) : Prop where
  chain : Chain s.heap.memory s.heap.firstHeader blocks
  returned : ∀ a ∈ s.live, a ∈ s.granted
  aligned : ∀ a ∈ s.granted, a.layout.align ∣ a.ptr
  offPageZero : ∀ a ∈ s.granted, 4096 ≤ a.ptr
  inside : ∀ a ∈ s.granted, ∃ d ∈ conventional ds, ∃ r, regionOf d = some r ∧
    userBytes a ⊆ Set.Ico r.1 r.2 ∧ Set.Ico r.1 r.2 ⊆ Set.Ico (range d).1 (range d).2
  apart : s.live.Pairwise (fun a b => Disjoint (userBytes a) (userBytes b))
  offHeaders : ∀ a ∈ s.live, ∀ b ∈ blocks, Disjoint (userBytes a) (headerBytes b)

theorem inv_safe (ds : List EfiMemoryDescriptor) (hc : ConventionalContract ds) (s : Client)
    (bs : List Block) (hi : Inv (registeredRegions ds) s bs) : Safe ds s bs := by
  have hap := registered_apart ds hc
  refine ⟨hi.chain,hi.recorded,fun a ha => (hi.sound a ha).aligned,?_,?_,?_,?_⟩
  · intro a ha
    obtain ⟨r,hr,hlow,-⟩ := (hi.sound a ha).inside
    exact (registered_ok ds hc r hr).1.page.trans hlow
  · intro a ha
    obtain ⟨r,hr,hlow,hhigh⟩ := (hi.sound a ha).inside
    obtain ⟨-,d,hd,hdr,h1,h2⟩ := registered_ok ds hc r hr
    exact ⟨d,hd,r,hdr,Set.Ico_subset_Ico hlow hhigh,Set.Ico_subset_Ico h1 h2⟩
  · apply List.Pairwise.imp_of_mem _ (List.pairwise_map.mp hi.distinct)
    intro a b ha hb hne
    exact inv_disjoint _ hap s bs hi a b ha hb hne
  · intro a ha b hb
    rw [Set.disjoint_left]
    rintro x hx ⟨h1,h2⟩
    have hh := inv_header _ hap s bs hi a ha b hb x hx
    omega

/-- Every run of a client is safe, and the next call of the allocator does not
touch a byte that is live when it is made. -/
theorem client_safe (map : MemoryMapHolder) (hmap : UefiContract map)
    (hconv : ConventionalContract (descriptors map)) (memory : HeaderMemory) (ops : List Op)
    (fuel : ℕ) (hf : (descriptors map).length+2*(ops.length+1) < fuel) :
    ∃ s blocks, run fuel map memory ops = .ok s ∧ Safe (descriptors map) s blocks ∧
      ∀ op, isPoke op = false → ∃ s', step fuel s op = .ok s' ∧
        ∀ a ∈ s.live, ∀ x ∈ userBytes a, s'.heap.memory x = s.heap.memory x := by
  obtain ⟨s,bs,hrun,hi,hlen⟩ := run_inv map _ (contract_shows map hmap) hconv memory ops fuel
    (by omega)
  refine ⟨s,bs,hrun,inv_safe _ hconv s bs hi,?_⟩
  intro op hop
  obtain ⟨s',bs',hstep,ha⟩ := step_advance _ (registered_apart _ hconv) s bs hi op fuel (by omega)
  refine ⟨s',hstep,ha.kept ?_⟩
  rintro i o y rfl
  cases hop

theorem client_safe_small :
    ∃ s blocks, run 20 smallMap (fun _ => .raw 0)
        [.alloc (layout 100 3 (by decide)),.dealloc 0,.alloc (layout 8 12 (by decide))] = .ok s ∧
      Safe (descriptors smallMap) s blocks ∧
      ∀ op, isPoke op = false → ∃ s', step 20 s op = .ok s' ∧
        ∀ a ∈ s.live, ∀ x ∈ userBytes a, s'.heap.memory x = s.heap.memory x :=
  client_safe smallMap smallMap_contract smallMap_conventional _ _ 20
    (by rw [smallMap_descriptors]; decide)

/-- The blocks shown by the headers partition the regions. -/
structure Partition (rs : List (ℕ × ℕ)) (blocks : List Block) : Prop where
  once : (blocks.map Block.addr).Nodup
  region : ∀ r ∈ rs, ∃ pre own post, blocks = pre++(own++post) ∧
    Tiles Block.addr Block.stop r.1 own r.2 ∧
    ∀ b, b ∈ pre ∨ b ∈ post → Apart (b.addr,b.stop) r
  owned : ∀ b ∈ blocks, ∃ r ∈ rs, r.1 ≤ b.addr ∧ b.stop ≤ r.2
  grain : ∀ b ∈ blocks, headerSize ∣ b.addr ∧ headerSize ∣ b.size ∧ headerSize ≤ b.size
  total : (blocks.map Block.size).sum = (rs.map (fun r => r.2-r.1)).sum

theorem tiles_sum (a z : ℕ) (bs : List Block) (h : Tiles Block.addr Block.stop a bs z) :
    a+(bs.map Block.size).sum = z := by
  induction bs generalizing a with
  | nil => exact h
  | cons b bs ih =>
    obtain ⟨rfl,-,ht⟩ := h
    have hsum := ih _ ht
    have hstop : b.stop = b.addr+b.size := rfl
    rw [List.map_cons, List.sum_cons]
    omega

theorem tilesAll_sum (rs : List (ℕ × ℕ)) (bs : List Block)
    (h : TilesAll Block.addr Block.stop rs bs) :
    (bs.map Block.size).sum = (rs.map (fun r => r.2-r.1)).sum := by
  induction rs generalizing bs with
  | nil =>
    rw [show bs = [] from h]
    rfl
  | cons r rs ih =>
    obtain ⟨own,rest,rfl,ht,hr⟩ := h
    have hown := tiles_sum _ _ own ht
    rw [List.map_append, List.sum_append, ih rest hr, List.map_cons, List.sum_cons]
    omega

theorem separate_nodup (bs : List Block) (hs : Separate bs) (hg : ∀ b ∈ bs, Granular b) :
    (bs.map Block.addr).Nodup := by
  apply List.pairwise_map.mpr
  apply List.Pairwise.imp_of_mem _ hs
  intro b c hb hc hap he
  have hrb := (hg b hb).room
  have hrc := (hg c hc).room
  have hH : headerSize = 32 := rfl
  unfold Apart Block.stop at hap
  simp only at hap
  omega

theorem inv_partition (rs : List (ℕ × ℕ)) (hrs : rs.Pairwise Apart) (s : Client) (bs : List Block)
    (hi : Inv rs s bs) : Partition rs bs := by
  refine ⟨?_,?_,?_,?_,tilesAll_sum rs bs hi.tiles⟩
  · exact separate_nodup bs (inv_separate rs hrs s bs hi) hi.granular
  · exact fun r hr => tilesAll_group _ _ rs bs hi.tiles hrs r hr
  · intro b hb
    obtain ⟨r,hr,h1,-,h3⟩ := tilesAll_mem _ _ rs bs hi.tiles b hb
    exact ⟨r,hr,h1,h3⟩
  · intro b hb
    exact ⟨(hi.granular b hb).addr,(hi.granular b hb).size,(hi.granular b hb).room⟩

/-- In every state of every run the chain of headers from the first one is
finite and shows a partition of the registered regions. -/
theorem headers_partition (map : MemoryMapHolder) (hmap : UefiContract map)
    (hconv : ConventionalContract (descriptors map)) (memory : HeaderMemory) (ops : List Op)
    (fuel : ℕ) (hf : (descriptors map).length+2*ops.length < fuel) :
    ∃ s blocks, run fuel map memory ops = .ok s ∧
      Chain s.heap.memory s.heap.firstHeader blocks ∧
      Partition (registeredRegions (descriptors map)) blocks := by
  obtain ⟨s,bs,hrun,hi,-⟩ := run_inv map _ (contract_shows map hmap) hconv memory ops fuel hf
  exact ⟨s,bs,hrun,hi.chain,inv_partition _ (registered_apart _ hconv) s bs hi⟩

theorem headers_partition_small :
    ∃ s blocks, run 20 smallMap (fun _ => .raw 0)
        [.alloc (layout 100 3 (by decide)),.dealloc 0,.alloc (layout 8 12 (by decide))] = .ok s ∧
      Chain s.heap.memory s.heap.firstHeader blocks ∧
      Partition (registeredRegions (descriptors smallMap)) blocks :=
  headers_partition smallMap smallMap_contract smallMap_conventional _ _ 20
    (by rw [smallMap_descriptors]; decide)

theorem large_sum (bs : List Block) : headerSize*2*bs.countP large ≤ (bs.map Block.size).sum := by
  induction bs with
  | nil => simp
  | cons b bs ih =>
    rw [List.countP_cons, List.map_cons, List.sum_cons, Nat.mul_add]
    split_ifs with h
    · have hsize : headerSize*2 ≤ b.size := of_decide_eq_true h
      omega
    · omega

/-- Between two states of a run the later headers refine the earlier ones, and
the number of requests granted so far is bounded by the bytes registered. -/
theorem boundaries_persist (map : MemoryMapHolder) (hmap : UefiContract map)
    (hconv : ConventionalContract (descriptors map)) (memory : HeaderMemory)
    (ops later : List Op) (fuel : ℕ)
    (hf : (descriptors map).length+2*(ops.length+later.length) < fuel) :
    ∃ s bs s' bs', run fuel map memory ops = .ok s ∧ run fuel map memory (ops++later) = .ok s' ∧
      Chain s.heap.memory s.heap.firstHeader bs ∧ Chain s'.heap.memory s'.heap.firstHeader bs' ∧
      (∀ b ∈ bs, ∃ c ∈ bs', c.addr = b.addr ∧ c.size ≤ b.size) ∧
      (∀ c ∈ bs', ∃ b ∈ bs, b.addr ≤ c.addr ∧ c.stop ≤ b.stop) ∧
      (registeredRegions (descriptors map)).length+s'.granted.length ≤
        ((registeredRegions (descriptors map)).map (fun r => r.2-r.1)).sum/64 := by
  obtain ⟨s,bs,hrun,hi,hlen⟩ := run_inv map _ (contract_shows map hmap) hconv memory ops fuel
    (by omega)
  obtain ⟨s',bs',hrun',hi',href,-⟩ := run_advance _ (registered_apart _ hconv) s bs hi later fuel
    (by omega)
  refine ⟨s,bs,s',bs',hrun,?_,hi.chain,hi'.chain,?_,href.1,?_⟩
  · obtain ⟨s0,hboot,hfrom⟩ := bind_ok _ _ _ hrun
    rw [run, hboot, ok_bind, runFrom, List.foldlM_append]
    rw [runFrom] at hfrom hrun'
    rw [hfrom]
    exact hrun'
  · intro b hb
    obtain ⟨c,hc,h1,h2⟩ := href.2 b hb
    refine ⟨c,hc,h1,?_⟩
    unfold Block.stop at h2
    omega
  · have hsum := large_sum bs'
    rw [tilesAll_sum _ _ hi'.tiles] at hsum
    have hcount := hi'.count
    have hH : headerSize = 32 := rfl
    rw [hH] at hsum
    rw [Nat.le_div_iff_mul_le (by decide)]
    omega

theorem boundaries_persist_small :
    ∃ s bs s' bs',
      run 20 smallMap (fun _ => .raw 0) [.alloc (layout 100 3 (by decide))] = .ok s ∧
      run 20 smallMap (fun _ => .raw 0)
        ([.alloc (layout 100 3 (by decide))]++[.dealloc 0,.alloc (layout 8 12 (by decide))]) =
          .ok s' ∧
      Chain s.heap.memory s.heap.firstHeader bs ∧ Chain s'.heap.memory s'.heap.firstHeader bs' ∧
      (∀ b ∈ bs, ∃ c ∈ bs', c.addr = b.addr ∧ c.size ≤ b.size) ∧
      (∀ c ∈ bs', ∃ b ∈ bs, b.addr ≤ c.addr ∧ c.stop ≤ b.stop) ∧
      (registeredRegions (descriptors smallMap)).length+s'.granted.length ≤
        ((registeredRegions (descriptors smallMap)).map (fun r => r.2-r.1)).sum/64 :=
  boundaries_persist smallMap smallMap_contract smallMap_conventional _ _ _ 20
    (by rw [smallMap_descriptors]; decide)

end Wasabi.Allocator.Safety
