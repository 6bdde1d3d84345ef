import Wasabi.Allocator.Safety

/-!
# How many pages the heap can hand out

A page is a request of 4096 bytes at an alignment of 4096. It is cut from the
end of a block, and its header takes the alignment of what is left away, so
every page after the first costs two. The number of pages that a list of
blocks supplies is the sum of what its free blocks supply alone.
-/

set_option autoImplicit false

namespace Wasabi.Allocator.PageSupply
open Wasabi.Uefi.Exit (wideMap wideMap_descriptors wideMap_contract)
open Wasabi.Rust Wasabi.WordBits Wasabi.Tiling Wasabi.Uefi.MemoryMap
open Wasabi.Allocator.FirstFit Wasabi.Allocator.Provide Wasabi.Allocator.BlockList
open Wasabi.Allocator.Registration Wasabi.Allocator.Runs Wasabi.Allocator.Safety

def layoutPage4k : Layout := ⟨4096,4096,⟨12,rfl⟩,by decide⟩

theorem page_request : requestSize layoutPage4k.size = 4096 ∧
    requestAlign layoutPage4k.align = 4096 := by
  decide

/-- Pages that a free block supplies until it refuses. -/
def pageYield (b : Block) : ℕ :=
  if b.isAllocated = true ∨ b.size < 8256 then 0 else 1+(b.size-b.stop%4096-4192)/8192

def pageYields (bs : List Block) : ℕ := (bs.map pageYield).sum

theorem pageYields_cons (b : Block) (bs : List Block) :
    pageYields (b::bs) = pageYield b+pageYields bs := List.sum_cons

theorem pageYields_append (bs cs : List Block) :
    pageYields (bs++cs) = pageYields bs+pageYields cs := by
  rw [pageYields, List.map_append, List.sum_append]
  rfl

theorem yield_zero (b : Block) (h : ¬ Admits b 4096 4096) : pageYield b = 0 := by
  apply if_pos
  by_contra hcon
  rw [not_or, Bool.not_eq_true] at hcon
  apply h
  refine ⟨hcon.1,?_⟩
  unfold headerSize
  omega

theorem yield_free (b : Block) (hfree : b.isAllocated = false) :
    pageYield b = if b.size < 8256 then 0 else 1+(b.size-b.stop%4096-4192)/8192 := by
  rw [pageYield, hfree]
  simp only [Bool.false_eq_true, false_or]

theorem yield_padding (b : Block) (p : ℕ) (h : b.stop < p+8192) :
    pageYields (padding b 4096 p) = 0 := by
  unfold padding
  split_ifs
  · rfl
  · have hfree := yield_free ⟨p+4096,b.stop-(p+4096),false⟩ rfl
    rw [if_pos (by simp only; omega)] at hfree
    rw [pageYields, List.map_singleton, List.sum_singleton, hfree]

/-- What is left in front supplies one page less. -/
theorem yield_remnant (b : Block) (h : Admits b 4096 4096) :
    pageYield b = pageYield (remnant b (placed b 4096 4096))+1 := by
  obtain ⟨hfree,hsize⟩ := h
  have hp : placed b 4096 4096 = b.stop-4096-(b.stop-4096)%4096 := rfl
  have hstop : b.stop = b.addr+b.size := rfl
  have hrest : (remnant b (placed b 4096 4096)).stop =
      b.addr+(remnant b (placed b 4096 4096)).size := rfl
  have hrsize : (remnant b (placed b 4096 4096)).size = placed b 4096 4096-32-b.addr := rfl
  rw [yield_free b hfree, yield_free _ (show (remnant b _).isAllocated = false from rfl)]
  unfold headerSize at hsize
  rw [if_neg (by omega)]
  split_ifs with hc
  · omega
  · omega

/-- Cutting a page from a block uses up one of the pages it supplies. -/
theorem yield_cut (b : Block) (h : Admits b 4096 4096) :
    pageYield b = pageYields (cut b 4096 4096)+1 := by
  have hp : placed b 4096 4096 = b.stop-4096-(b.stop-4096)%4096 := rfl
  have hsize := h.2
  have hstop : b.stop = b.addr+b.size := rfl
  unfold headerSize at hsize
  have hgranted : ∀ p, pageYield (granted 4096 p) = 0 := fun p => if_pos (Or.inl rfl)
  have hpadding := yield_padding b (placed b 4096 4096) (by omega)
  have hsum : pageYields (cut b 4096 4096) = pageYield (remnant b (placed b 4096 4096)) := by
    rw [cut, pageYields_cons, pageYields_cons, hgranted, hpadding]
    exact Nat.add_zero _
  rw [hsum]
  exact yield_remnant b h

/-- The pages that first fit hands out one after the other. -/
def supply : ℕ → List Block → List ℕ
  | 0, _ => []
  | n+1, bs =>
    match firstFit 4096 4096 bs with
    | none => []
    | some (p,bs') => p::supply n bs'

def suppliedPages (bs : List Block) : List ℕ := supply (pageYields bs) bs

theorem yields_none (bs : List Block) (h : firstFit 4096 4096 bs = none) : pageYields bs = 0 := by
  have hno := (firstFit_none 4096 4096 bs).mp h
  apply List.sum_eq_zero
  intro n hn
  obtain ⟨b,hb,rfl⟩ := List.mem_map.mp hn
  exact yield_zero b (hno b hb)

theorem yields_some (bs bs' : List Block) (p : ℕ) (h : firstFit 4096 4096 bs = some (p,bs')) :
    pageYields bs = pageYields bs'+1 := by
  obtain ⟨pre,b,post,rfl,-,hadm,-,rfl⟩ := (firstFit_some 4096 4096 bs p bs').mp h
  have hb := yield_cut b hadm
  rw [pageYields_append, pageYields_append, pageYields_append, pageYields_cons]
  omega

theorem supply_length (n : ℕ) (bs : List Block) (h : n ≤ pageYields bs) :
    (supply n bs).length = n := by
  induction n generalizing bs with
  | zero => rfl
  | succ n ih =>
    rw [supply]
    cases hff : firstFit 4096 4096 bs with
    | none =>
      have h0 := yields_none bs hff
      omega
    | some r =>
      have hr := yields_some bs r.2 r.1 hff
      change (supply n r.2).length+1 = n+1
      rw [ih r.2 (by omega)]

theorem supplied_length (bs : List Block) : (suppliedPages bs).length = pageYields bs :=
  supply_length _ bs le_rfl

theorem supplied_none (bs : List Block) (h : firstFit 4096 4096 bs = none) :
    suppliedPages bs = [] := by
  rw [suppliedPages, yields_none bs h]
  rfl

theorem supplied_some (bs bs' : List Block) (p : ℕ) (h : firstFit 4096 4096 bs = some (p,bs')) :
    suppliedPages bs = p::suppliedPages bs' := by
  rw [suppliedPages, yields_some bs bs' p h, supply, h]
  rfl

theorem yield_le (b : Block) : pageYield b ≤ b.size := by
  unfold pageYield
  split_ifs with h <;> omega

theorem yields_le (bs : List Block) : pageYields bs ≤ (bs.map Block.size).sum := by
  induction bs with
  | nil => exact le_rfl
  | cons b bs ih =>
    have hb := yield_le b
    rw [pageYields_cons, List.map_cons, List.sum_cons]
    omega

def pageAt (p : ℕ) : Allocation := ⟨p,layoutPage4k⟩

/-- A client after pages were handed out to it, the last one in front. -/
structure Paged (rs : List (ℕ × ℕ)) (s s' : Client) (bs' : List Block) (ps : List ℕ) : Prop where
  inv : Inv rs s' bs'
  live : s'.live = (ps.map pageAt).reverse++s.live
  granted : s'.granted = (ps.map pageAt).reverse++s.granted
  kept : ∀ a ∈ s.live, ∀ x ∈ userBytes a, s'.heap.memory x = s.heap.memory x

section Heap
variable (rs : List (ℕ × ℕ)) (hrs : rs.Pairwise Apart)
include hrs

theorem page_step (s : Client) (bs : List Block) (hi : Inv rs s bs) (fuel : ℕ)
    (hf : bs.length ≤ fuel) : ∃ s' bs', step fuel s (.alloc layoutPage4k) = .ok s' ∧
      bs'.length ≤ bs.length+2 ∧ Paged rs s s' bs' ((suppliedPages bs).take 1) ∧
      suppliedPages bs' = (suppliedPages bs).drop 1 := by
  obtain ⟨hsize,halign⟩ := page_request
  cases hff : firstFit 4096 4096 bs with
  | none =>
    have hno : ¬ (0 < layoutPage4k.size ∧ Room bs layoutPage4k) := by
      rintro ⟨-,b,hb,ha⟩
      rw [hsize, halign] at ha
      exact (firstFit_none 4096 4096 bs).mp hff b hb ha
    refine ⟨s,bs,?_,Nat.le_add_right _ _,?_,?_⟩
    · rw [step, alloc_full rs s bs hi fuel hf layoutPage4k hno]
      rfl
    · rw [supplied_none bs hff]
      exact ⟨hi,rfl,rfl,fun _ _ _ _ => rfl⟩
    · rw [supplied_none bs hff]
      rfl
  | some r =>
    obtain ⟨pre,b,post,he,hpre,hadm,hp,hbs⟩ := (firstFit_some 4096 4096 bs r.1 r.2).mp hff
    obtain ⟨heap',hrun,hne,hadv⟩ := alloc_first rs hrs s bs hi fuel hf layoutPage4k (by decide)
      pre post b he (by rw [hsize, halign]; exact hpre) (by rw [hsize, halign]; exact hadm)
    have hgrant : grantFrom b layoutPage4k = pageAt r.1 := by
      rw [grantFrom, hsize, halign, ← hp]
      rfl
    have hcut : pre++(cutFor b layoutPage4k++post) = r.2 := by
      rw [cutFor, hsize, halign, ← hbs]
    rw [hgrant] at hrun hne hadv
    rw [hcut] at hadv
    refine ⟨⟨heap',pageAt r.1::s.live,pageAt r.1::s.granted⟩,r.2,?_,hadv.length,?_,?_⟩
    · rw [step, hrun]
      exact if_neg hne
    · rw [supplied_some bs r.2 r.1 hff]
      exact ⟨hadv.inv,rfl,rfl,hadv.kept (by rintro _ _ _ h; cases h)⟩
    · rw [supplied_some bs r.2 r.1 hff]
      rfl

/-- Requests for pages succeed until the supply is used up. -/
theorem page_run (n : ℕ) (s : Client) (bs : List Block) (hi : Inv rs s bs) (fuel : ℕ)
    (hf : bs.length+2*n ≤ fuel) :
    ∃ s' bs', runFrom fuel s (List.replicate n (.alloc layoutPage4k)) = .ok s' ∧
      bs'.length ≤ bs.length+2*n ∧ Paged rs s s' bs' ((suppliedPages bs).take n) ∧
      suppliedPages bs' = (suppliedPages bs).drop n := by
  induction n generalizing s bs with
  | zero => exact ⟨s,bs,rfl,le_rfl,⟨hi,rfl,rfl,fun _ _ _ _ => rfl⟩,rfl⟩
  | succ n ih =>
    obtain ⟨s1,bs1,h1,hl1,hp1,hpages⟩ := page_step rs hrs s bs hi fuel (by omega)
    obtain ⟨s2,bs2,h2,hl2,hp2,hrest⟩ := ih s1 bs1 hp1.inv (by omega)
    have hsplit : (suppliedPages bs).take (n+1) =
        (suppliedPages bs).take 1++(suppliedPages bs1).take n := by
      rw [hpages, Nat.add_comm, List.take_add]
    refine ⟨s2,bs2,?_,by omega,⟨hp2.inv,?_,?_,?_⟩,?_⟩
    · rw [List.replicate_succ, runFrom, List.foldlM_cons, h1]
      exact h2
    · rw [hp2.live, hp1.live, hsplit, List.map_append, List.reverse_append, List.append_assoc]
    · rw [hp2.granted, hp1.granted, hsplit, List.map_append, List.reverse_append,
        List.append_assoc]
    · intro a ha x hx
      rw [hp2.kept a (by rw [hp1.live]; exact List.mem_append_right _ ha) x hx, hp1.kept a ha x hx]
    · rw [hrest, hpages, List.drop_drop, Nat.add_comm]

/-- The pages that the heap supplies are distinct, aligned and in its regions,
and they overlap nothing that is live. -/
theorem supplied_sound (s : Client) (bs : List Block) (hi : Inv rs s bs) :
    (suppliedPages bs).Nodup ∧
    ∀ p ∈ suppliedPages bs, 4096 ∣ p ∧ ∃ r ∈ rs, r.1 ≤ p ∧ p+4096 ≤ r.2 := by
  obtain ⟨s',bs',-,-,hpaged,-⟩ := page_run rs hrs (suppliedPages bs).length s bs hi _ le_rfl
  rw [List.take_length] at hpaged
  constructor
  · have hd := hpaged.inv.distinct
    rw [hpaged.live, List.map_append, List.map_reverse, List.map_map] at hd
    have hfront := hd.sublist (List.sublist_append_left _ _)
    rw [List.nodup_reverse] at hfront
    have hid : Allocation.ptr ∘ pageAt = id := rfl
    rwa [hid, List.map_id] at hfront
  · intro p hp
    have hmem : pageAt p ∈ s'.granted := by
      rw [hpaged.granted]
      exact List.mem_append_left _ (List.mem_reverse.mpr (List.mem_map_of_mem hp))
    have hok := hpaged.inv.sound _ hmem
    exact ⟨hok.aligned,hok.inside⟩

end Heap

/-- Half of the pages of a region can be handed out as pages. -/
def regionPages (r : ℕ × ℕ) : ℕ := if (r.2-r.1)/4096 < 3 then 0 else (r.2-r.1)/4096/2

theorem yield_region (r : ℕ × ℕ) (h : RegionOk r) : pageYield (freeBlock r) = regionPages r := by
  have hstart := h.start
  have hstop := h.stop
  have hroom := h.room
  have hbstop : (freeBlock r).stop = r.1+(r.2-r.1) := rfl
  have hbsize : (freeBlock r).size = r.2-r.1 := rfl
  rw [yield_free (freeBlock r) rfl, regionPages, hbstop, hbsize]
  have hmod : (r.1+(r.2-r.1))%4096 = 0 := by omega
  rw [hmod]
  split_ifs <;> omega

theorem yield_regions (rs : List (ℕ × ℕ)) (h : ∀ r ∈ rs, RegionOk r) :
    pageYields (rs.map freeBlock) = (rs.map regionPages).sum := by
  induction rs with
  | nil => rfl
  | cons r rs ih =>
    rw [List.map_cons, pageYields_cons, yield_region r (h r (by simp)),
      ih (fun q hq => h q (by simp [hq])), List.map_cons, List.sum_cons]

/-- In any reachable state requests for a page succeed exactly as often as the
free blocks supply pages, and after the initialisation that is half of the
pages of each region that has at least three. -/
theorem page_capacity (map : MemoryMapHolder) (hmap : UefiContract map)
    (hconv : ConventionalContract (descriptors map)) (memory : HeaderMemory) (ops : List Op)
    (n fuel : ℕ) (hf : (descriptors map).length+2*(ops.length+n) < fuel) :
    (∃ s bs s', run fuel map memory ops = .ok s ∧
      Chain s.heap.memory s.heap.firstHeader bs ∧
      runFrom fuel s (List.replicate n (.alloc layoutPage4k)) = .ok s' ∧
      s'.granted.length = s.granted.length+min n (pageYields bs)) ∧
    ∃ s s', boot fuel map memory = .ok s ∧
      runFrom fuel s (List.replicate n (.alloc layoutPage4k)) = .ok s' ∧
      s'.granted.length =
        min n ((registeredRegions (descriptors map)).map regionPages).sum := by
  have hs := contract_shows map hmap
  have hap := registered_apart _ hconv
  have hcount : ∀ (s s' : Client) (bs bs' : List Block),
      Paged (registeredRegions (descriptors map)) s s' bs' ((suppliedPages bs).take n) →
      s'.granted.length = s.granted.length+min n (pageYields bs) := by
    intro s s' bs bs' hpaged
    rw [hpaged.granted, List.length_append, List.length_reverse, List.length_map,
      List.length_take, supplied_length, Nat.add_comm]
  constructor
  · obtain ⟨s,bs,hrun,hi,hlen⟩ := run_inv map _ hs hconv memory ops fuel (by omega)
    obtain ⟨s',bs',hrun',-,hpaged,-⟩ := page_run _ hap n s bs hi fuel (by omega)
    exact ⟨s,bs,s',hrun,hi.chain,hrun',hcount s s' bs bs' hpaged⟩
  · obtain ⟨s,hboot,-,hgranted,hi⟩ := boot_inv map _ hs hconv memory fuel (by omega)
    have hlen : (registeredRegions (descriptors map)).length ≤ (descriptors map).length := by
      rw [registeredRegions, List.length_reverse]
      exact (List.length_filterMap_le _ _).trans (List.length_filter_le _ _)
    obtain ⟨s',bs',hrun',-,hpaged,-⟩ := page_run _ hap n s _ hi fuel
      (by rw [List.length_map]; omega)
    have hc := hcount s s' _ bs' hpaged
    rw [hgranted, yield_regions _ (fun r hr => (registered_ok _ hconv r hr).1)] at hc
    exact ⟨s,s',hboot,hrun',by rw [hc, List.length_nil, Nat.zero_add]⟩

theorem page_capacity_wide :
    (∃ s bs s', run (2^42) wideMap (fun _ => .raw 0) [.alloc (layout 100 3 (by decide))] = .ok s ∧
      Chain s.heap.memory s.heap.firstHeader bs ∧
      runFrom (2^42) s (List.replicate 5 (.alloc layoutPage4k)) = .ok s' ∧
      s'.granted.length = s.granted.length+min 5 (pageYields bs)) ∧
    ∃ s s', boot (2^42) wideMap (fun _ => .raw 0) = .ok s ∧
      runFrom (2^42) s (List.replicate 5 (.alloc layoutPage4k)) = .ok s' ∧
      s'.granted.length =
        min 5 ((registeredRegions (descriptors wideMap)).map regionPages).sum :=
  page_capacity wideMap wideMap_contract wideMap_conventional _ _ 5 (2^42)
    (by rw [wideMap_descriptors]; decide)

-- The region has half as many pages to give as it has pages, and two of them
-- do not give one.
example : regionPages (0x200000000,0x10200000000) = 0x8000000 ∧
    regionPages (0x1000,0x3000) = 0 := by decide

end Wasabi.Allocator.PageSupply
