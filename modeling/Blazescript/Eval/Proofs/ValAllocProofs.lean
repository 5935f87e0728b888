import Blazescript.Arena.Proofs.FreeListProofs
import Blazescript.Eval.Proofs.ValueProofs
import Blazescript.Eval.ValAlloc
import Blazescript.Tracing.Proofs.RecorderProofs

/-!
# Proofs: runs of `valalloc.c`

The table is a free list, so it never hands out a slot in use. Pointers to its slots last until the block moves.
-/

namespace Blaze

open Arena Tracing

variable {tbl : ValAllocTbl} {index : Nat} {used : List Nat} {s s' : TblUse} {isUser : Nat → Prop} {v : Val}

namespace ValAllocTbl

theorem freeList_alloc (tbl : ValAllocTbl) : tbl.alloc.1 = tbl.freeList.alloc.1 ∧
    tbl.alloc.2.freeList = tbl.freeList.alloc.2 := by
  unfold freeList FreeList.alloc
  rcases tbl.alloc_cases with ⟨index, next, hhead, hindex, hnext, hvalues⟩ | ⟨hhead, hindex, hnext, v, hvalues⟩
  · rw [hhead, hindex, hnext, hvalues]
    exact ⟨rfl, rfl⟩
  · rw [hhead, hindex, hnext, hvalues, List.length_append]
    exact ⟨rfl, rfl⟩

theorem freeList_store (tbl : ValAllocTbl) (index : Nat) (value : Val) :
    (tbl.store index value).freeList = tbl.freeList := by
  unfold freeList store
  rw [List.length_set]

theorem release_eq (hv : tbl.values[index]? = some v) :
    tbl.release index = (tbl.pushFree index).store index ⟨.null, true, v.selfPtr⟩ := by
  unfold release
  rw [hv]

theorem freeList_release (hv : tbl.values[index]? = some v) :
    (tbl.release index).freeList = tbl.freeList.free index := by
  rw [release_eq hv, freeList_store]
  rfl

theorem capacity_resize (hsize : tbl.values.length ≤ tbl.capacity) (hpos : 0 < tbl.capacity) :
    tbl.values.length < tbl.resize.capacity ∧ tbl.capacity ≤ tbl.resize.capacity := by
  unfold resize
  by_cases hlt : tbl.values.length < tbl.capacity - 1
  · rw [if_pos hlt]
    exact ⟨by omega, Nat.le_refl _⟩
  · rw [if_neg hlt]
    show tbl.values.length < tbl.capacity * 2 ∧ tbl.capacity ≤ tbl.capacity * 2
    exact ⟨by omega, by omega⟩

theorem values_resize (tbl : ValAllocTbl) : tbl.resize.values = tbl.values := by
  unfold resize
  split
  · rfl
  · rfl

/-- The table has room for the slot that is handed out. -/
theorem capacity_alloc (hsize : tbl.values.length ≤ tbl.capacity) (hpos : 0 < tbl.capacity) :
    tbl.alloc.2.values.length ≤ tbl.alloc.2.capacity ∧ tbl.capacity ≤ tbl.alloc.2.capacity := by
  cases hhead : tbl.head with
  | cons index next =>
    unfold alloc
    rw [hhead]
    exact ⟨hsize, Nat.le_refl _⟩
  | nil =>
    obtain ⟨hroom, hcapacity⟩ := capacity_resize hsize hpos
    unfold alloc
    rw [hhead]
    show (tbl.resize.values ++ [_]).length ≤ tbl.resize.capacity ∧ tbl.capacity ≤ tbl.resize.capacity
    rw [List.length_append, List.length_singleton, values_resize]
    exact ⟨hroom, hcapacity⟩

theorem values_alloc (h : index < tbl.values.length) : tbl.alloc.2.values[index]? = tbl.values[index]? := by
  rcases tbl.alloc_cases with ⟨-, -, -, -, -, hvalues⟩ | ⟨-, -, -, v, hvalues⟩
  · rw [hvalues]
  · rw [hvalues, List.getElem?_append_left h]

theorem capacity_release (tbl : ValAllocTbl) (index : Nat) : (tbl.release index).capacity = tbl.capacity ∧
    (tbl.release index).values.length = tbl.values.length := by
  unfold release
  split
  · exact ⟨rfl, List.length_set⟩
  · exact ⟨rfl, rfl⟩

end ValAllocTbl

open ValAllocTbl

/-! ## Indices -/

/-- The slots in use are those of a free list, and the table has room for them. -/
structure TblUse.Inv (s : TblUse) : Prop where
  tracks : s.tbl.freeList.Tracks s.used
  size : s.tbl.values.length ≤ s.tbl.capacity
  capacity : 0 < s.tbl.capacity

theorem inv_init : TblUse.Inv ⟨.init, []⟩ := ⟨FreeList.tracks_empty, Nat.zero_le _, by decide⟩

theorem TblUse.Inv.exact (h : s.Inv) : s.Exact := ⟨h.tracks.headNodup, h.tracks.free⟩

theorem TblUse.Inv.call {event : TblCall} (h : s.Inv) (hcall : TblUse.Calls isUser s event s') : s'.Inv := by
  cases hcall with
  | alloc =>
    obtain ⟨hindex, hlist⟩ := s.tbl.freeList_alloc
    obtain ⟨hsize, hcapacity⟩ := capacity_alloc h.size h.capacity
    refine ⟨?_, hsize, Nat.lt_of_lt_of_le h.capacity hcapacity⟩
    show FreeList.Tracks s.tbl.alloc.2.freeList (s.tbl.alloc.1 :: s.used)
    rw [hlist, hindex]
    exact h.tracks.alloc
  | @write index value hused =>
    refine ⟨?_, ?_, h.capacity⟩
    · show FreeList.Tracks (s.tbl.store index value).freeList s.used
      rw [freeList_store]
      exact h.tracks
    · exact (List.length_set ..).trans_le h.size
  | @free index v hused hv hfn =>
    obtain ⟨hcapacity, hlength⟩ := s.tbl.capacity_release index
    refine ⟨?_, ?_, ?_⟩
    · show FreeList.Tracks (s.tbl.release index).freeList (s.used.erase index)
      rw [freeList_release hv]
      exact (h.tracks.perm (List.perm_cons_erase hused)).release
    · show (s.tbl.release index).values.length ≤ (s.tbl.release index).capacity
      rw [hlength, hcapacity]
      exact h.size
    · show 0 < (s.tbl.release index).capacity
      rw [hcapacity]
      exact h.capacity

theorem TblUse.Inv.tidy {event : TblCall} (h : s.Inv) (hcall : TblUse.Calls isUser s event s') :
    Tidy ⟨event, s, s'⟩ := by
  cases hcall with
  | alloc =>
    obtain ⟨hindex, hlist⟩ := s.tbl.freeList_alloc
    obtain ⟨hfresh, hlt⟩ := h.tracks.alloc_fresh
    rw [← hindex, ← hlist] at hlt
    rw [← hindex] at hfresh
    obtain ⟨hsize, -⟩ := capacity_alloc h.size h.capacity
    refine ⟨fun _ => ⟨_, rfl, hfresh, Nat.lt_of_lt_of_le hlt hsize⟩, fun index hi _ _ => ?_⟩
    exact values_alloc (h.tracks.within index hi)
  | @write index value hused =>
    refine ⟨?_, fun i hi hwrite _ => ?_⟩
    · intro he
      cases he
    have hne : index ≠ i := by
      rintro rfl
      exact hwrite value rfl
    exact List.getElem?_set_ne hne
  | @free index v hused hv hfn =>
    refine ⟨?_, fun i hi _ hfree => ?_⟩
    · intro he
      cases he
    have hne : index ≠ i := by
      rintro rfl
      exact hfree rfl
    show (s.tbl.release index).values[i]? = _
    rw [release_eq hv]
    exact List.getElem?_set_ne hne

/-- In every run the free list is exact, and the calls are tidy. -/
theorem valAlloc_tidy {trace : List (Step TblUse TblCall)}
    (h : Path (TblUse.Calls isUser) ⟨.init, []⟩ trace s) :
    s.Exact ∧ ∀ step ∈ trace, step.post.Exact ∧ Tidy step := by
  have hsteps := h.invariant_mem (I := TblUse.Inv) (C := fun _ => True) inv_init (fun _ _ => trivial)
    fun step _ hcall hinv => hinv.call hcall
  refine ⟨hsteps.1.exact, fun step hstep => ?_⟩
  obtain ⟨hcall, hpre, hpost⟩ := hsteps.2 step hstep
  exact ⟨hpost.exact, hpre.tidy hcall⟩


/-- A slot comes back, and is handed out again. -/
theorem valAlloc_tidy_reuse : TblUse.Exact ⟨(init.alloc.2.alloc.2.release 0).alloc.2, [0, 1]⟩ := by
  have hfirst : Path (TblUse.Calls fun _ => True) ⟨.init, []⟩ _ ⟨init.alloc.2, [0]⟩ := .cons (.nil _) (.alloc _)
  have hsecond := hfirst.cons (.alloc _)
  have hfree : TblUse.Calls (fun _ => True) ⟨init.alloc.2.alloc.2, [1, 0]⟩ (.free 0)
      ⟨init.alloc.2.alloc.2.release 0, [1]⟩ := by
    refine .free (v := ⟨.integer 0, false, some 0⟩) (by decide) rfl fun f hf => ?_
    cases hf
  exact (valAlloc_tidy ((hsecond.cons hfree).cons (.alloc _))).1


/-! ## Pointers -/

/-- The pointers designate the slots of the free list that are in use. A table has room for two values at least. -/
structure PtrUse.Inv (s : PtrUse) : Prop where
  designates : s.Designates
  tracks : s.addr.tbl.freeList.Tracks (s.handles.map Handle.index)
  size : s.addr.tbl.values.length ≤ s.addr.tbl.capacity
  capacity : 2 ≤ s.addr.tbl.capacity

variable {p p' : PtrUse} {base moved : Nat} {handle : Handle}

theorem PtrUse.inv_init (base : Nat) : PtrUse.Inv ⟨⟨base, .init⟩, []⟩ where
  designates := fun _ h => nomatch h
  tracks := FreeList.tracks_empty
  size := Nat.zero_le _
  capacity := show 2 ≤ 4096 by decide

/-- When the table grows, its first slot is in use. -/
theorem PtrUse.Inv.first (h : p.Inv) (hgrows : p.addr.tbl.Grows) : ∃ handle ∈ p.handles, handle.index = 0 := by
  obtain ⟨hhead, hsize⟩ := hgrows
  have hcapacity := h.capacity
  have hfree := h.tracks.free 0
  have hused : 0 ∈ p.handles.map Handle.index := by
    by_contra hunused
    have hmem : 0 ∈ p.addr.tbl.head := hfree.mpr ⟨show 0 < p.addr.tbl.values.length by omega, hunused⟩
    rw [hhead] at hmem
    cases hmem
  exact List.mem_map.mp hused

/-- While the table stays where it is, the pointers do too. -/
theorem PtrUse.Inv.alloc (h : p.Inv) (hbase : (p.addr.alloc moved).2.base = p.addr.base) :
    PtrUse.Inv ⟨(p.addr.alloc moved).2, ⟨(p.addr.alloc moved).1, p.addr.tbl.alloc.1⟩ :: p.handles⟩ := by
  obtain ⟨hindex, hlist⟩ := p.addr.tbl.freeList_alloc
  have hcap := h.capacity
  obtain ⟨hsize, hcapacity⟩ := capacity_alloc h.size (show 0 < p.addr.tbl.capacity by omega)
  refine ⟨?_, ?_, hsize, Nat.le_trans hcap hcapacity⟩
  · intro handle hmem
    rcases List.mem_cons.mp hmem with rfl | hmem
    · rfl
    · rw [hbase]
      exact h.designates handle hmem
  · show FreeList.Tracks p.addr.tbl.alloc.2.freeList (p.addr.tbl.alloc.1 :: p.handles.map Handle.index)
    rw [hlist, hindex]
    exact h.tracks.alloc

/-- A pointer that designates its slot frees it. -/
theorem PtrUse.Inv.free_eq (h : p.Inv) (hmem : handle ∈ p.handles) :
    p.addr.free handle.ptr = some ⟨p.addr.base, p.addr.tbl.release handle.index⟩ := by
  have hptr := h.designates handle hmem
  have hlt : handle.index < p.addr.tbl.values.length := h.tracks.within _ (List.mem_map_of_mem hmem)
  have hindex : handle.ptr - p.addr.base = handle.index := by omega
  unfold AddrTbl.free
  rw [if_pos ⟨by omega, by omega⟩, hindex]

theorem PtrUse.Inv.free (h : p.Inv) (hmem : handle ∈ p.handles) :
    PtrUse.Inv ⟨⟨p.addr.base, p.addr.tbl.release handle.index⟩, p.handles.erase handle⟩ := by
  obtain ⟨hcapacity, hlength⟩ := p.addr.tbl.capacity_release handle.index
  have hlt : handle.index < p.addr.tbl.values.length := h.tracks.within _ (List.mem_map_of_mem hmem)
  refine ⟨fun other hother => h.designates other (List.mem_of_mem_erase hother), ?_, ?_, ?_⟩
  · show FreeList.Tracks (p.addr.tbl.release handle.index).freeList _
    rw [freeList_release (List.getElem?_eq_getElem hlt)]
    have hperm := (List.perm_cons_erase hmem).map Handle.index
    exact (h.tracks.perm hperm).release
  · show (p.addr.tbl.release handle.index).values.length ≤ (p.addr.tbl.release handle.index).capacity
    rw [hlength, hcapacity]
    exact h.size
  · show 2 ≤ (p.addr.tbl.release handle.index).capacity
    rw [hcapacity]
    exact h.capacity

theorem AddrTbl.base_alloc {a : AddrTbl} (h : a.tbl.Grows → moved = a.base) : (a.alloc moved).2.base = a.base := by
  unfold AddrTbl.alloc
  dsimp only
  by_cases hgrows : a.tbl.Grows
  · rw [if_pos hgrows, h hgrows]
  · rw [if_neg hgrows]

/-- A call that does not move the block keeps the pointers. -/
theorem PtrUse.Inv.survives {event : PtrCall} (h : p.Inv) (hcall : PtrUse.Calls p event p')
    (hmoves : ¬ Moves ⟨event, p, p'⟩) : Survives ⟨event, p, p'⟩ ∧ p'.Inv := by
  cases hcall with
  | alloc moved =>
    have hbase : (p.addr.alloc moved).2.base = p.addr.base := by
      refine AddrTbl.base_alloc fun hgrows => ?_
      by_contra hne
      exact hmoves ⟨moved, rfl, hgrows, hne⟩
    have hpost := h.alloc hbase
    refine ⟨⟨hpost.designates, ?_⟩, hpost⟩
    intro handle he
    cases he
  | @free handle addr hmem hfree =>
    rw [h.free_eq hmem] at hfree
    obtain rfl := Option.some.inj hfree
    have hpost := h.free hmem
    have hlt : handle.index < p.addr.tbl.values.length := h.tracks.within _ (List.mem_map_of_mem hmem)
    refine ⟨⟨hpost.designates, ?_⟩, hpost⟩
    intro other he
    cases he
    show (p.addr.tbl.release handle.index).head = _
    rw [release_eq (List.getElem?_eq_getElem hlt)]
    rfl

/-- When the block moves, the pointer to the first slot dangles. -/
theorem PtrUse.Inv.dangles {event : PtrCall} (h : p.Inv) (hcall : PtrUse.Calls p event p')
    (hmoves : Moves ⟨event, p, p'⟩) : ¬ Survives ⟨event, p, p'⟩ := by
  intro hsurvives
  obtain ⟨moved, he, hgrows, hne⟩ := hmoves
  obtain ⟨handle, hmem, hindex⟩ := h.first hgrows
  have he : event = .alloc moved := he
  subst he
  cases hcall with
  | alloc =>
    have hbefore := h.designates handle hmem
    have hafter : handle.ptr = (p.addr.alloc moved).2.base + handle.index :=
      hsurvives.designates handle (List.mem_cons_of_mem _ hmem)
    have hbase : (p.addr.alloc moved).2.base = moved := if_pos hgrows
    have hne : moved ≠ p.addr.base := hne
    omega

/-- In a run the pointers survive every call exactly when no call moves the block. -/
theorem handles_survive {trace : List (Step PtrUse PtrCall)} (h : Path PtrUse.Calls ⟨⟨base, .init⟩, []⟩ trace p) :
    (∀ step ∈ trace, Survives step) ↔ ∀ step ∈ trace, ¬ Moves step := by
  constructor
  · intro hsurvive
    have hsteps := h.invariant_mem (I := PtrUse.Inv) (PtrUse.inv_init base) hsurvive
      fun step hstep hcall hinv => (hinv.survives hcall fun hmoves => hinv.dangles hcall hmoves hstep).2
    intro step hmem hmoves
    obtain ⟨hcall, hinv, -⟩ := hsteps.2 step hmem
    exact hinv.dangles hcall hmoves (hsurvive step hmem)
  · intro hstay
    have hsteps := h.invariant_mem (I := PtrUse.Inv) (PtrUse.inv_init base) hstay
      fun step hstep hcall hinv => (hinv.survives hcall hstep).2
    intro step hmem
    obtain ⟨hcall, hinv, -⟩ := hsteps.2 step hmem
    exact (hinv.survives hcall (hstay step hmem)).1

/-- A pointer is returned and freed. -/
theorem handles_survive_free : Survives ⟨.free ⟨64, 0⟩, ⟨⟨64, ValAllocTbl.init.alloc.2⟩, [⟨64, 0⟩]⟩,
    ⟨⟨64, ValAllocTbl.init.alloc.2.release 0⟩, []⟩⟩ := by
  have halloc : Path PtrUse.Calls ⟨⟨64, .init⟩, []⟩ _ ⟨⟨64, ValAllocTbl.init.alloc.2⟩, [⟨64, 0⟩]⟩ :=
    .cons (.nil _) (.alloc _ 64)
  have hfree : PtrUse.Calls ⟨⟨64, ValAllocTbl.init.alloc.2⟩, [⟨64, 0⟩]⟩ (.free ⟨64, 0⟩)
      ⟨⟨64, ValAllocTbl.init.alloc.2.release 0⟩, []⟩ := .free List.mem_cons_self rfl
  refine (handles_survive (halloc.cons hfree)).mpr ?_ _ List.mem_cons_self
  rintro step hmem ⟨moved, -, ⟨-, hgrows⟩, -⟩
  rcases List.mem_cons.mp hmem with rfl | hmem
  · exact hgrows (by decide)
  · obtain rfl := List.mem_singleton.mp hmem
    exact hgrows (by decide)

/-- Allocations fill the table. -/
theorem fills (n : Nat) (hn : n ≤ 4095) : ∃ trace p, Path PtrUse.Calls ⟨⟨64, .init⟩, []⟩ trace p ∧
    p.Inv ∧ p.addr.base = 64 ∧ p.addr.tbl.head = [] ∧ p.addr.tbl.capacity = 4096 ∧ p.addr.tbl.values.length = n := by
  induction n with
  | zero => exact ⟨_, _, .nil _, PtrUse.inv_init 64, rfl, rfl, rfl, rfl⟩
  | succ n ih =>
    obtain ⟨trace, p, hpath, hinv, hbase, hhead, hcapacity, hlength⟩ := ih (Nat.le_of_succ_le hn)
    have hstays : ¬ p.addr.tbl.Grows := by
      rintro ⟨-, hfull⟩
      omega
    have hbase' : (p.addr.alloc 64).2.base = p.addr.base := AddrTbl.base_alloc fun hgrows => absurd hgrows hstays
    have hresize : p.addr.tbl.resize = p.addr.tbl := if_pos (by omega)
    have halloc : p.addr.tbl.alloc.2 =
        ⟨p.addr.tbl.values ++ [⟨.integer 0, false, some p.addr.tbl.values.length⟩], p.addr.tbl.capacity, []⟩ := by
      unfold ValAllocTbl.alloc
      rw [hhead, hresize]
      show (⟨_, _, p.addr.tbl.head⟩ : ValAllocTbl) = _
      rw [hhead]
    refine ⟨_, _, hpath.cons (.alloc p 64), hinv.alloc hbase', hbase'.trans hbase, ?_, ?_, ?_⟩
    · exact congrArg ValAllocTbl.head halloc
    · exact (congrArg ValAllocTbl.capacity halloc).trans hcapacity
    · refine (congrArg (fun tbl => tbl.values.length) halloc).trans ?_
      show (p.addr.tbl.values ++ [_]).length = n + 1
      rw [List.length_append, List.length_singleton, hlength]

/-- The 4096th allocation moves the block. -/
theorem handles_dangle : ¬ ∀ trace p, Path PtrUse.Calls ⟨⟨64, .init⟩, []⟩ trace p → ∀ step ∈ trace, Survives step := by
  intro hall
  obtain ⟨trace, p, hpath, hinv, hbase, hhead, hcapacity, hlength⟩ := fills 4095 (Nat.le_refl _)
  have hfull : ¬ p.addr.tbl.values.length < p.addr.tbl.capacity - 1 := by omega
  have hmoved : 8192 ≠ p.addr.base := by omega
  have hcall := PtrUse.Calls.alloc p 8192
  exact hinv.dangles hcall ⟨8192, rfl, ⟨hhead, hfull⟩, hmoved⟩ (hall _ _ (hpath.cons hcall) _ List.mem_cons_self)

end Blaze
