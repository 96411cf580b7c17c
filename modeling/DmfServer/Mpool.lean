/-
# The block pool

`mpool.c`: one piece of memory is cut into blocks of one size, and a list has a node for
every block, with a flag that says whether the block is handed out.  `pool_alloc` takes
the first block whose flag is clear, `pool_free` looks for the node of the pointer it is
given, and a counter says how many flags are clear.  Behind `pool_init` the nodes stay
where they are, so the list of the nodes is a list here; a pointer is its address.

The counter and the flags agree in every run, and no two blocks that are out overlap
(`blocks_run`).  `pool_alloc` waits with an `if`: it returns a block in every run in which
nobody takes one that a woken caller is on its way to (`alloc_run`), and `NULL` when
another caller is faster (`alloc_run_overtaken`).
-/
import DmfServer.StepSystem

open StepSystem

namespace Mpool

/-- `node_t`, in its place of the list. -/
structure NodeT where
  data : ℕ
  used : ℤ
  deriving DecidableEq

/-- `pool_t`, without the lock. -/
structure PoolT where
  head : List NodeT
  count : ℤ
  blockSize : ℕ
  totalSize : ℕ
  memPool : ℕ
  deriving DecidableEq

/-! ## The functions -/

/-- The loop of `pool_init`: so many more nodes, the next one for the block at `ptr`. -/
def addNodes : ℕ → ℕ → PoolT → PoolT
  | 0, _, pool => pool
  | num + 1, ptr, pool =>
      addNodes num (ptr + pool.blockSize)
        { pool with head := { data := ptr, used := 0 } :: pool.head, count := pool.count + 1 }

/-- `pool_init` with the memory at `memPool`. -/
def poolInit (memPool blockSize totalSize : ℕ) : PoolT :=
  addNodes (totalSize / blockSize) memPool
    { head := [], count := 0, blockSize := blockSize, totalSize := totalSize, memPool := memPool }

/-- The walk to the first node that is looked for, and the list with its flag set. -/
def setFirst (wanted : NodeT → Bool) (used : ℤ) : List NodeT → Option (NodeT × List NodeT)
  | [] => none
  | node :: nodes =>
      if wanted node then some (node, { node with used := used } :: nodes)
      else (setFirst wanted used nodes).map fun r => (r.1, node :: r.2)

/-- `pool_alloc` behind the wait; a block at 0 is `NULL`. -/
def poolAlloc (pool : PoolT) : ℕ × PoolT :=
  match setFirst (fun node => node.used = 0) 1 pool.head with
  | none => (0, pool)
  | some (current, head) => (current.data, { pool with head := head, count := pool.count - 1 })

/-- `pool_free`; it signals if it finds the node. -/
def poolFree (pool : PoolT) (data : ℕ) : PoolT :=
  match setFirst (fun node => node.data = data) 0 pool.head with
  | none => pool
  | some (_, head) => { pool with head := head, count := pool.count + 1 }

/-! ## The walk -/

theorem setFirst_eq_none_iff {wanted : NodeT → Bool} {used : ℤ} {nodes : List NodeT} :
    setFirst wanted used nodes = none ↔ ∀ node ∈ nodes, wanted node = false := by
  induction nodes with
  | nil => simp [setFirst]
  | cons node nodes ih =>
      rw [setFirst, List.forall_mem_cons]
      by_cases hnode : wanted node = true
      · simp [hnode]
      · simp [hnode, ih]

theorem setFirst_eq_some {wanted : NodeT → Bool} {used : ℤ} {nodes nodes' : List NodeT}
    {node : NodeT} (h : setFirst wanted used nodes = some (node, nodes')) :
    wanted node = true ∧ ∃ a b, nodes = a ++ node :: b ∧
      nodes' = a ++ { node with used := used } :: b := by
  induction nodes generalizing nodes' with
  | nil => simp [setFirst] at h
  | cons first nodes ih =>
      rw [setFirst] at h
      by_cases hfirst : wanted first = true
      · rw [if_pos hfirst, Option.some.injEq, Prod.mk.injEq] at h
        obtain ⟨rfl, rfl⟩ := h
        exact ⟨hfirst, [], nodes, rfl, rfl⟩
      · rw [if_neg hfirst] at h
        obtain ⟨⟨found, rest⟩, hrest, heq⟩ := Option.map_eq_some_iff.mp h
        rw [Prod.mk.injEq] at heq
        dsimp only at heq
        obtain ⟨rfl, rfl⟩ := heq
        obtain ⟨hwanted, a, b, rfl, rfl⟩ := ih hrest
        exact ⟨hwanted, first :: a, b, rfl, rfl⟩

/-! ## The pool in order -/

/-- The addresses of the blocks, the last one first. -/
def blocks (memPool blockSize num : ℕ) : List ℕ :=
  ((List.range num).map fun i => memPool + i * blockSize).reverse

theorem mem_blocks {memPool blockSize num p : ℕ} :
    p ∈ blocks memPool blockSize num ↔ ∃ i < num, p = memPool + i * blockSize := by
  unfold blocks
  rw [List.mem_reverse, List.mem_map]
  constructor
  · rintro ⟨i, hi, rfl⟩
    exact ⟨i, List.mem_range.mp hi, rfl⟩
  · rintro ⟨i, hi, rfl⟩
    exact ⟨i, List.mem_range.mpr hi, rfl⟩

theorem nodup_blocks {memPool blockSize : ℕ} (hblock : 0 < blockSize) (num : ℕ) :
    (blocks memPool blockSize num).Nodup := by
  unfold blocks
  rw [List.nodup_reverse]
  refine List.nodup_range.map fun i j hij => ?_
  exact Nat.eq_of_mul_eq_mul_right hblock (Nat.add_left_cancel hij)

/-- The nodes are those of the blocks, the set flags are those of the blocks in `out`, and
the counter is the number of the clear ones. -/
structure PoolT.Holds (pool : PoolT) (nodes out : List ℕ) : Prop where
  nodes : pool.head.map NodeT.data = nodes
  used : ((pool.head.filter fun node => node.used ≠ 0).map NodeT.data).Perm out
  count : pool.count = (pool.head.filter fun node => node.used = 0).length

/-- A pool with one node's flag set from `u` to `v`. -/
theorem filter_setFlag (a b : List NodeT) (data : ℕ) (u : ℤ) (q : NodeT → Bool) :
    ((a ++ { data := data, used := u } :: b).filter q).Perm
      (if q { data := data, used := u } then
        { data := data, used := u } :: (a ++ b).filter q else (a ++ b).filter q) := by
  rw [List.filter_append, List.filter_cons, List.filter_append]
  split
  · exact List.perm_middle
  · exact List.Perm.refl _

theorem addNodes_holds (num : ℕ) {ptr : ℕ} {pool : PoolT} {nodes : List ℕ}
    (h : pool.Holds nodes []) :
    (addNodes num ptr pool).Holds (blocks ptr pool.blockSize num ++ nodes) [] := by
  induction num generalizing ptr pool nodes with
  | zero => exact h
  | succ num ih =>
      have hnext : PoolT.Holds
          { pool with head := { data := ptr, used := 0 } :: pool.head, count := pool.count + 1 }
          (ptr :: nodes) [] := by
        refine ⟨?_, ?_, ?_⟩
        · rw [List.map_cons, h.nodes]
        · rw [List.filter_cons_of_neg (by simp)]
          exact h.used
        · rw [List.filter_cons_of_pos (by simp), List.length_cons]
          show pool.count + 1 = _
          rw [h.count]
          push_cast
          rfl
      have hall := @ih (ptr + pool.blockSize) _ _ hnext
      -- the blocks behind the first one are the blocks from the next `ptr` on
      have hblocks : blocks ptr pool.blockSize (num + 1) =
          blocks (ptr + pool.blockSize) pool.blockSize num ++ [ptr] := by
        unfold blocks
        rw [List.range_succ_eq_map, List.map_cons, List.reverse_cons, List.map_map]
        congr 3
        · funext i
          show ptr + (i + 1) * pool.blockSize = _
          rw [Nat.succ_mul]
          omega
        · omega
      rw [addNodes, hblocks, List.append_assoc]
      exact hall

/-- `pool_init` makes a pool in order. -/
theorem poolInit_holds (memPool blockSize totalSize : ℕ) :
    (poolInit memPool blockSize totalSize).Holds
      (blocks memPool blockSize (totalSize / blockSize)) [] := by
  have hnone : PoolT.Holds { head := [], count := 0, blockSize := blockSize
                             totalSize := totalSize, memPool := memPool } [] [] :=
    ⟨rfl, .nil, rfl⟩
  have h := @addNodes_holds (totalSize / blockSize) memPool _ _ hnone
  rwa [List.append_nil] at h

namespace PoolT.Holds

variable {pool : PoolT} {nodes out : List ℕ}

/-- The blocks that are out are blocks of the pool. -/
theorem subset (h : pool.Holds nodes out) {p : ℕ} (hp : p ∈ out) : p ∈ nodes := by
  obtain ⟨node, hnode, rfl⟩ := List.mem_map.mp (h.used.mem_iff.mpr hp)
  rw [← h.nodes]
  exact List.mem_map_of_mem (List.mem_of_mem_filter hnode)

/-- They are out once. -/
theorem nodup (h : pool.Holds nodes out) (hnodup : nodes.Nodup) : out.Nodup := by
  refine h.used.nodup_iff.mp (List.Nodup.sublist ?_ (h.nodes ▸ hnodup))
  exact List.filter_sublist.map _

theorem count_nonneg (h : pool.Holds nodes out) : 0 ≤ pool.count := by
  rw [h.count]
  exact Int.natCast_nonneg _

/-- `pool_alloc` of a pool with a block left hands out a block. -/
theorem alloc (h : pool.Holds nodes out) (hcount : pool.count ≠ 0) :
    ∃ p pool', poolAlloc pool = (p, pool') ∧ p ∈ nodes ∧ pool'.Holds nodes (p :: out) ∧
      pool'.count = pool.count - 1 := by
  unfold poolAlloc
  cases hfirst : setFirst (fun node => node.used = 0) 1 pool.head with
  | none =>
      refine absurd ?_ hcount
      rw [h.count, List.filter_eq_nil_iff.mpr]
      · rfl
      · intro node hnode
        simpa using setFirst_eq_none_iff.mp hfirst node hnode
  | some r =>
      obtain ⟨⟨data, used⟩, head⟩ := r
      obtain ⟨hused, a, b, hhead, rfl⟩ := setFirst_eq_some hfirst
      obtain rfl : used = 0 := by simpa using hused
      have hnodes := h.nodes
      have hout := h.used
      have hcnt := h.count
      rw [hhead] at hnodes hout hcnt
      have hlen := (filter_setFlag a b data 0 fun node => node.used = 0).length_eq
      rw [if_pos (by simp), List.length_cons] at hlen
      refine ⟨data, _, rfl, ?_, ⟨?_, ?_, ?_⟩, rfl⟩
      · rw [← hnodes]
        simp
      · simpa using hnodes
      · refine ((filter_setFlag a b data 1 _).map _).trans ?_
        rw [if_pos (by simp), List.map_cons]
        refine List.Perm.cons _ (List.Perm.trans ?_ hout)
        have hclear := (filter_setFlag a b data 0 fun node => node.used ≠ 0).map NodeT.data
        rw [if_neg (by simp)] at hclear
        exact hclear.symm
      · have hset := (filter_setFlag a b data 1 fun node => node.used = 0).length_eq
        rw [if_neg (by simp)] at hset
        show pool.count - 1 = _
        rw [hset, hcnt, hlen]
        push_cast
        omega

/-- `pool_alloc` of a pool without one is `NULL`. -/
theorem alloc_none (h : pool.Holds nodes out) (hcount : pool.count = 0) :
    poolAlloc pool = (0, pool) := by
  have hnone : setFirst (fun node => node.used = 0) 1 pool.head = none := by
    refine setFirst_eq_none_iff.mpr fun node hnode => ?_
    have hcnt := h.count
    rw [hcount] at hcnt
    have hnil := List.length_eq_zero_iff.mp (Int.natCast_eq_zero.mp hcnt.symm)
    simpa using List.filter_eq_nil_iff.mp hnil node hnode
  unfold poolAlloc
  rw [hnone]

/-- `pool_free` takes a block back that is out. -/
theorem free {p : ℕ} (h : pool.Holds nodes (p :: out)) (hnodup : nodes.Nodup) :
    (poolFree pool p).Holds nodes out ∧ (poolFree pool p).count = pool.count + 1 := by
  obtain ⟨node, hnode, hdata⟩ := List.mem_map.mp (h.used.mem_iff.mpr List.mem_cons_self)
  obtain ⟨hmem, hused⟩ := List.mem_filter.mp hnode
  unfold poolFree
  cases hfirst : setFirst (fun node => node.data = p) 0 pool.head with
  | none => simpa [hdata] using setFirst_eq_none_iff.mp hfirst node hmem
  | some r =>
      obtain ⟨found, head⟩ := r
      obtain ⟨hfound, a, b, hhead, rfl⟩ := setFirst_eq_some hfirst
      -- no two nodes are of one block, so the node found is the one with the flag set
      have hinj := List.inj_on_of_nodup_map (h.nodes ▸ hnodup : (pool.head.map NodeT.data).Nodup)
      obtain rfl : found = node := by
        refine hinj ?_ hmem ((by simpa using hfound : found.data = p).trans hdata.symm)
        rw [hhead]
        simp
      obtain ⟨data, used⟩ := found
      obtain rfl : data = p := hdata
      replace hused : used ≠ 0 := by simpa using hused
      have hnodes := h.nodes
      have hout := h.used
      have hcnt := h.count
      rw [hhead] at hnodes hout hcnt
      refine ⟨⟨?_, ?_, ?_⟩, rfl⟩
      · simpa using hnodes
      · refine ((filter_setFlag a b data 0 _).map _).trans ?_
        rw [if_neg (by simp)]
        have hset := (filter_setFlag a b data used fun node => node.used ≠ 0).map NodeT.data
        rw [if_pos (by simpa using hused), List.map_cons] at hset
        exact (hset.symm.trans hout).cons_inv
      · have hclear := (filter_setFlag a b data 0 fun node => node.used = 0).length_eq
        have hset := (filter_setFlag a b data used fun node => node.used = 0).length_eq
        rw [if_pos (by simp), List.length_cons] at hclear
        rw [if_neg (by simpa using hused)] at hset
        show pool.count + 1 = _
        rw [hclear, hcnt, hset]
        push_cast
        rfl

/-- `pool_free` of a pointer that is no block's does nothing. -/
theorem free_foreign (h : pool.Holds nodes out) {p : ℕ} (hp : p ∉ nodes) :
    poolFree pool p = pool := by
  have hnone : setFirst (fun node => node.data = p) 0 pool.head = none := by
    refine setFirst_eq_none_iff.mpr fun node hnode => ?_
    rw [decide_eq_false_iff_not]
    rintro rfl
    rw [← h.nodes] at hp
    exact hp (List.mem_map_of_mem hnode)
  unfold poolFree
  rw [hnone]

/-- The order of the blocks that are out does not matter. -/
theorem perm {out' : List ℕ} (h : pool.Holds nodes out) (hperm : out.Perm out') :
    pool.Holds nodes out' :=
  ⟨h.nodes, h.used.trans hperm, h.count⟩

end PoolT.Holds

/-! ## One call after the other -/

/-- A call on the pool. -/
inductive BlockEvent : Type where
  | alloc (p : ℕ)
  | free (p : ℕ)

/-- The pool and the blocks that are out, over a call. -/
inductive BlockStep (nodes : List ℕ) :
    PoolT × List ℕ → BlockEvent → PoolT × List ℕ → Prop where
  /-- `pool_alloc` of a pool that has a block left. -/
  | alloc {pool pool' : PoolT} {out : List ℕ} {p : ℕ} (some : 0 < pool.count)
      (ok : poolAlloc pool = (p, pool')) : BlockStep nodes (pool, out) (.alloc p) (pool', p :: out)
  /-- `pool_free` of a block that is out. -/
  | free {pool : PoolT} {a b : List ℕ} {p : ℕ} :
      BlockStep nodes (pool, a ++ p :: b) (.free p) (poolFree pool p, a ++ b)
  /-- `pool_free` of a pointer that is no block's. -/
  | foreign {pool : PoolT} {out : List ℕ} {p : ℕ} (foreign : p ∉ nodes) :
      BlockStep nodes (pool, out) (.free p) (poolFree pool p, out)

/-- What one call keeps, and returns. -/
theorem BlockStep.holds {nodes : List ℕ} {s t : PoolT × List ℕ} {e : BlockEvent}
    (hstep : BlockStep nodes s e t) (hnodup : nodes.Nodup) (h : s.1.Holds nodes s.2) :
    t.1.Holds nodes t.2 ∧ ∀ p, e = .alloc p → p ∈ nodes := by
  cases hstep with
  | @alloc pool pool' out p hsome hok =>
      obtain ⟨q, pool'', hok', hq, hholds, -⟩ := h.alloc (Int.ne_of_gt hsome)
      rw [hok, Prod.mk.injEq] at hok'
      obtain ⟨rfl, rfl⟩ := hok'
      refine ⟨hholds, ?_⟩
      rintro _ ⟨⟩
      exact hq
  | free =>
      refine ⟨((h.perm List.perm_middle).free hnodup).1, ?_⟩
      rintro _ ⟨⟩
  | foreign hforeign =>
      refine ⟨?_, ?_⟩
      · show (poolFree _ _).Holds nodes _
        rw [h.free_foreign hforeign]
        exact h
      · rintro _ ⟨⟩

/-- What is promised of a run of calls. -/
structure BlocksSound (memPool blockSize totalSize : ℕ) (s : PoolT × List ℕ)
    (es : List BlockEvent) : Prop where
  count : s.1.count = (s.1.head.filter fun node => node.used = 0).length
  /-- What is out are blocks of the pool. -/
  blocks : ∀ p ∈ s.2, ∃ i < totalSize / blockSize, p = memPool + i * blockSize
  inside : ∀ p ∈ s.2, memPool ≤ p ∧ p + blockSize ≤ memPool + totalSize
  disjoint : s.2.Pairwise fun p q => p + blockSize ≤ q ∨ q + blockSize ≤ p
  /-- No call has returned `NULL`. -/
  allocs : ∀ p, .alloc p ∈ es → p ≠ 0
  foreign : ∀ p, (∀ i < totalSize / blockSize, p ≠ memPool + i * blockSize) →
    poolFree s.1 p = s.1

/-- A block is inside the memory of the pool. -/
theorem block_le {blockSize totalSize i : ℕ} (hi : i < totalSize / blockSize) :
    i * blockSize + blockSize ≤ totalSize := by
  calc i * blockSize + blockSize = (i + 1) * blockSize := (Nat.succ_mul i blockSize).symm
    _ ≤ totalSize / blockSize * blockSize := Nat.mul_le_mul_right _ hi
    _ ≤ totalSize := Nat.div_mul_le_self _ _

/-- Two blocks do not overlap. -/
theorem blocks_apart {memPool blockSize i j : ℕ} (hij : i ≠ j) :
    memPool + i * blockSize + blockSize ≤ memPool + j * blockSize ∨
      memPool + j * blockSize + blockSize ≤ memPool + i * blockSize := by
  have hlt : ∀ {k l : ℕ}, k < l →
      memPool + k * blockSize + blockSize ≤ memPool + l * blockSize := by
    intro k l hkl
    have hmul := Nat.mul_le_mul_right blockSize (Nat.succ_le_of_lt hkl)
    rw [Nat.succ_mul] at hmul
    omega
  rcases Nat.lt_or_gt_of_ne hij with hlt' | hgt
  · exact Or.inl (hlt hlt')
  · exact Or.inr (hlt hgt)

/-- In every run of `pool_alloc` and `pool_free` the counter and the flags agree, and what
is handed out are disjoint blocks of the memory. -/
theorem blocks_run {memPool blockSize totalSize : ℕ} (hmem : memPool ≠ 0)
    (hblock : 0 < blockSize) {es : List BlockEvent} {s : PoolT × List ℕ}
    (h : Steps (BlockStep (blocks memPool blockSize (totalSize / blockSize)))
      (poolInit memPool blockSize totalSize, []) es s) :
    BlocksSound memPool blockSize totalSize s es := by
  have hnodup := @nodup_blocks memPool _ hblock (totalSize / blockSize)
  have hall : s.1.Holds (blocks memPool blockSize (totalSize / blockSize)) s.2 ∧
      ∀ p, .alloc p ∈ es → p ∈ blocks memPool blockSize (totalSize / blockSize) := by
    induction h with
    | nil => exact ⟨poolInit_holds _ _ _, by simp⟩
    | snoc _ hstep ih =>
        obtain ⟨hholds, hallocs⟩ := ih
        obtain ⟨hnext, hevent⟩ := hstep.holds hnodup hholds
        refine ⟨hnext, fun p hp => ?_⟩
        rcases List.mem_append.mp hp with hp | hp
        · exact hallocs p hp
        · exact hevent p (List.mem_singleton.mp hp).symm
  obtain ⟨hholds, hallocs⟩ := hall
  refine ⟨hholds.count, ?_, ?_, ?_, ?_, ?_⟩
  · intro p hp
    exact mem_blocks.mp (hholds.subset hp)
  · intro p hp
    obtain ⟨i, hi, rfl⟩ := mem_blocks.mp (hholds.subset hp)
    have hle := block_le hi
    omega
  · refine List.Pairwise.imp_of_mem ?_ (hholds.nodup hnodup)
    intro p q hp hq hpq
    obtain ⟨i, -, rfl⟩ := mem_blocks.mp (hholds.subset hp)
    obtain ⟨j, -, rfl⟩ := mem_blocks.mp (hholds.subset hq)
    refine blocks_apart ?_
    rintro rfl
    exact hpq rfl
  · intro p hp
    obtain ⟨i, -, rfl⟩ := mem_blocks.mp (hallocs p hp)
    omega
  · intro p hp
    refine hholds.free_foreign fun hmem => ?_
    obtain ⟨i, hi, heq⟩ := mem_blocks.mp hmem
    exact hp i hi heq

/-- Two blocks of 8 bytes at 16, with two bytes to spare: both go out, one comes back, a
pointer into a block is refused, and the free block goes out again. -/
theorem blocks_run_reuse : ∃ pool : PoolT, BlocksSound 16 8 18 (pool, [24, 16])
    [.alloc 24, .alloc 16, .free 24, .free 20, .alloc 24] := by
  have halloc₁ : BlockStep (blocks 16 8 2) (poolInit 16 8 18, []) (.alloc 24)
      (⟨[⟨24, 1⟩, ⟨16, 0⟩], 1, 8, 18, 16⟩, [24]) := .alloc (by decide) (by decide)
  have halloc₂ : BlockStep (blocks 16 8 2) (⟨[⟨24, 1⟩, ⟨16, 0⟩], 1, 8, 18, 16⟩, [24]) (.alloc 16)
      (⟨[⟨24, 1⟩, ⟨16, 1⟩], 0, 8, 18, 16⟩, [16, 24]) := .alloc (by decide) (by decide)
  have hfree : BlockStep (blocks 16 8 2) (⟨[⟨24, 1⟩, ⟨16, 1⟩], 0, 8, 18, 16⟩, [16] ++ 24 :: [])
      (.free 24) (⟨[⟨24, 0⟩, ⟨16, 1⟩], 1, 8, 18, 16⟩, [16] ++ []) := .free
  have hforeign : BlockStep (blocks 16 8 2) (⟨[⟨24, 0⟩, ⟨16, 1⟩], 1, 8, 18, 16⟩, [16]) (.free 20)
      (⟨[⟨24, 0⟩, ⟨16, 1⟩], 1, 8, 18, 16⟩, [16]) := .foreign (by decide)
  have halloc₃ : BlockStep (blocks 16 8 2) (⟨[⟨24, 0⟩, ⟨16, 1⟩], 1, 8, 18, 16⟩, [16]) (.alloc 24)
      (⟨[⟨24, 1⟩, ⟨16, 1⟩], 0, 8, 18, 16⟩, [24, 16]) := .alloc (by decide) (by decide)
  exact ⟨_, blocks_run (by decide) (by decide)
    (((((Steps.nil.snoc halloc₁).snoc halloc₂).snoc hfree).snoc hforeign).snoc halloc₃)⟩

/-! ## The callers -/

/-- The pool, the callers at its condition variable, and the blocks that are out. -/
structure AllocState (Caller : Type) where
  pool : PoolT
  cond : Waiters Caller
  out : List ℕ

/-- What happens in a step; a block at 0 is `NULL`. -/
inductive AllocEvent : Type where
  /-- `pool_alloc` returns, having waited or not. -/
  | alloc (waited : Bool) (p : ℕ)
  /-- It goes to sleep. -/
  | sleeps
  | free (p : ℕ)
  | spurious

section
variable {Caller : Type}

/-- A returned block is out, if it is one. -/
def handOut (p : ℕ) (out : List ℕ) : List ℕ := if p = 0 then out else p :: out

/-- A step of the system. -/
inductive AllocStep : AllocState Caller → AllocEvent → AllocState Caller → Prop where
  /-- `pool_alloc` finds that there is a block left. -/
  | call {s : AllocState Caller} {p : ℕ} {pool : PoolT} (some : s.pool.count ≠ 0)
      (ok : poolAlloc s.pool = (p, pool)) :
      AllocStep s (.alloc false p) { s with pool := pool, out := handOut p s.out }
  /-- `pool_alloc` finds that there is none, and waits. -/
  | wait {s : AllocState Caller} (x : Caller) (none : s.pool.count = 0) :
      AllocStep s .sleeps { s with cond := s.cond.sleep x }
  /-- A woken caller gets the lock back: it does not look at `count` again. -/
  | resume {s : AllocState Caller} {x : Caller} {c : Waiters Caller} {p : ℕ} {pool : PoolT}
      (gets : Waiters.Resume s.cond x c) (ok : poolAlloc s.pool = (p, pool)) :
      AllocStep s (.alloc true p) { pool := pool, cond := c, out := handOut p s.out }
  /-- `pool_free` of a block that is out, and its signal. -/
  | free {s : AllocState Caller} {a b : List ℕ} {p : ℕ} {c : Waiters Caller}
      (held : s.out = a ++ p :: b) (signal : Waiters.Signal s.cond c) :
      AllocStep s (.free p) { pool := poolFree s.pool p, cond := c, out := a ++ b }
  /-- A caller wakes without a signal. -/
  | spurious {s : AllocState Caller} {c : Waiters Caller} (wakes : Waiters.Spurious s.cond c) :
      AllocStep s .spurious { s with cond := c }

/-- Behind `pool_init`. -/
def allocStart (pool : PoolT) : AllocState Caller := { pool := pool, cond := .none, out := [] }

/-- There is a block for a caller besides those the woken callers are on their way to. -/
def Spare (s : AllocState Caller) : Prop := (s.cond.woken.length : ℤ) < s.pool.count

/-- A caller that did not wait takes a block, and a caller wakes without a signal, only
when there is one to spare. -/
def NoOvertaking (s : AllocState Caller) : AllocEvent → Prop
  | .alloc false _ => Spare s
  | .spurious => Spare s
  | _ => True

/-- `pool_alloc` with a pool in order: a block, or `NULL` of a pool without one. -/
theorem PoolT.Holds.alloc_cases {pool pool' : PoolT} {nodes out : List ℕ} {p : ℕ}
    (h : pool.Holds nodes out) (hok : poolAlloc pool = (p, pool')) (hnull : 0 ∉ nodes) :
    pool'.Holds nodes (handOut p out) ∧
      ((p = 0 ∧ pool.count = 0) ∨ (p ≠ 0 ∧ pool'.count = pool.count - 1)) := by
  unfold handOut
  by_cases hcount : pool.count = 0
  · rw [h.alloc_none hcount] at hok
    cases hok
    exact ⟨by rwa [if_pos rfl], Or.inl ⟨rfl, hcount⟩⟩
  · obtain ⟨q, pool'', hok', hq, hholds, hless⟩ := h.alloc hcount
    rw [hok, Prod.mk.injEq] at hok'
    obtain ⟨rfl, rfl⟩ := hok'
    have hne : p ≠ 0 := fun hz => hnull (hz ▸ hq)
    rw [if_neg hne]
    exact ⟨hholds, Or.inr ⟨hne, hless⟩⟩

/-- What any step keeps, whoever is faster. -/
theorem AllocStep.holds {nodes : List ℕ} {s t : AllocState Caller} {e : AllocEvent}
    (hstep : AllocStep s e t) (hnodup : nodes.Nodup) (hnull : 0 ∉ nodes)
    (h : s.pool.Holds nodes s.out) : t.pool.Holds nodes t.out := by
  cases hstep with
  | call hsome hok => exact (h.alloc_cases hok hnull).1
  | wait x hnone => exact h
  | resume hgets hok => exact (h.alloc_cases hok hnull).1
  | @free a b p c hheld hsignal =>
      rw [hheld] at h
      exact ((h.perm List.perm_middle).free hnodup).1
  | spurious hwakes => exact h

/-- There is a block for every woken caller. -/
def Supplied (s : AllocState Caller) : Prop := (s.cond.woken.length : ℤ) ≤ s.pool.count

/-- What a step that overtakes nobody keeps, and returns. -/
theorem AllocStep.supplied {nodes : List ℕ} {s t : AllocState Caller} {e : AllocEvent}
    (hstep : AllocStep s e t) (hfair : NoOvertaking s e) (hnodup : nodes.Nodup) (hnull : 0 ∉ nodes)
    (h : s.pool.Holds nodes s.out) (hs : Supplied s) :
    Supplied t ∧ ∀ waited, e ≠ .alloc waited 0 := by
  unfold Supplied at hs ⊢
  cases hstep with
  | @call p pool hsome hok =>
      have hspare : Spare s := hfair
      unfold Spare at hspare
      obtain ⟨-, ⟨-, hzero⟩ | ⟨hne, hless⟩⟩ := h.alloc_cases hok hnull
      · exact absurd hzero hsome
      · refine ⟨?_, fun waited heq => ?_⟩
        · show (s.cond.woken.length : ℤ) ≤ pool.count
          omega
        · cases heq
          exact hne rfl
  | wait x hnone =>
      refine ⟨hs, fun waited heq => ?_⟩
      cases heq
  | @resume x c p pool hgets hok =>
      have hlen := hgets.length_woken
      obtain ⟨-, ⟨-, hzero⟩ | ⟨hne, hless⟩⟩ := h.alloc_cases hok hnull
      -- an empty pool has no block for the caller that was woken
      · omega
      · refine ⟨?_, fun waited heq => ?_⟩
        · show (c.woken.length : ℤ) ≤ pool.count
          omega
        · cases heq
          exact hne rfl
  | @free a b p c hheld hsignal =>
      rw [hheld] at h
      obtain ⟨-, hmore⟩ := (h.perm List.perm_middle).free hnodup
      refine ⟨?_, fun waited heq => ?_⟩
      · show (c.woken.length : ℤ) ≤ (poolFree s.pool p).count
        have hlen := hsignal.length_woken_le
        omega
      · cases heq
  | @spurious c hwakes =>
      have hspare : Spare s := hfair
      unfold Spare at hspare
      have hlen := hwakes.length_woken
      refine ⟨?_, fun waited heq => ?_⟩
      · show (c.woken.length : ℤ) ≤ s.pool.count
        omega
      · cases heq

/-- No call of the run has returned `NULL`, and `count` is not negative. -/
def AllocSound (s : AllocState Caller) (es : List AllocEvent) : Prop :=
  (∀ waited, .alloc waited 0 ∉ es) ∧ 0 ≤ s.pool.count

/-- In a run in which nobody overtakes a woken caller, `pool_alloc` never returns `NULL`. -/
theorem alloc_run {memPool blockSize totalSize : ℕ} (hmem : memPool ≠ 0) (hblock : 0 < blockSize)
    {es : List AllocEvent} {s : AllocState Caller}
    (h : Steps (fun s e t => AllocStep s e t ∧ NoOvertaking s e)
      (allocStart (poolInit memPool blockSize totalSize)) es s) : AllocSound s es := by
  have hnodup := @nodup_blocks memPool _ hblock (totalSize / blockSize)
  have hnull : 0 ∉ blocks memPool blockSize (totalSize / blockSize) := by
    intro hz
    obtain ⟨i, -, hi⟩ := mem_blocks.mp hz
    omega
  have hinit := poolInit_holds memPool blockSize totalSize
  have hall : (s.pool.Holds (blocks memPool blockSize (totalSize / blockSize)) s.out ∧
      Supplied s) ∧ ∀ waited, .alloc waited 0 ∉ es := by
    induction h with
    | nil => exact ⟨⟨hinit, hinit.count_nonneg⟩, by simp⟩
    | snoc _ hstep ih =>
        obtain ⟨⟨hholds, hsupplied⟩, hnone⟩ := ih
        obtain ⟨hnext, hevent⟩ := hstep.1.supplied hstep.2 hnodup hnull hholds hsupplied
        refine ⟨⟨hstep.1.holds hnodup hnull hholds, hnext⟩, fun waited hmem => ?_⟩
        rcases List.mem_append.mp hmem with hmem | hmem
        · exact hnone waited hmem
        · exact hevent waited (List.mem_singleton.mp hmem).symm
  exact ⟨hall.2, hall.1.1.count_nonneg⟩

end

/-- The one block of a pool is out, caller 2 waits for it, and it comes back: caller 2 is
woken. -/
theorem exists_handOver :
    Steps (fun s e t => AllocStep s e t ∧ NoOvertaking s e) (allocStart (poolInit 16 8 8))
      [.alloc false 16, .sleeps, .free 16]
      (⟨poolInit 16 8 8, ⟨[], [2]⟩, []⟩ : AllocState ℕ) := by
  have halloc : AllocStep (allocStart (poolInit 16 8 8)) (.alloc false 16)
      (⟨⟨[⟨16, 1⟩], 0, 8, 8, 16⟩, .none, [16]⟩ : AllocState ℕ) := .call (by decide) (by decide)
  have hwait : AllocStep (⟨⟨[⟨16, 1⟩], 0, 8, 8, 16⟩, .none, [16]⟩ : AllocState ℕ) .sleeps
      ⟨⟨[⟨16, 1⟩], 0, 8, 8, 16⟩, ⟨[2], []⟩, [16]⟩ := .wait 2 rfl
  have hfree : AllocStep (⟨⟨[⟨16, 1⟩], 0, 8, 8, 16⟩, ⟨[2], []⟩, [16]⟩ : AllocState ℕ) (.free 16)
      ⟨poolInit 16 8 8, ⟨[], [2]⟩, []⟩ :=
    .free (a := []) (b := []) rfl (.wakes (a := []) (b := []))
  exact ((Steps.nil.snoc ⟨halloc, by show (0 : ℤ) < 1; decide⟩).snoc ⟨hwait, trivial⟩).snoc
    ⟨hfree, trivial⟩

/-- The woken caller gets the block. -/
theorem alloc_run_handOver : ∃ s : AllocState ℕ, AllocSound s
    [.alloc false 16, .sleeps, .free 16, .alloc true 16] := by
  have hresume : AllocStep (⟨poolInit 16 8 8, ⟨[], [2]⟩, []⟩ : AllocState ℕ) (.alloc true 16)
      ⟨⟨[⟨16, 1⟩], 0, 8, 8, 16⟩, .none, [16]⟩ :=
    .resume (.gets (a := []) (b := [])) (by decide)
  exact ⟨_, alloc_run (by decide) (by decide) (exists_handOver.snoc ⟨hresume, trivial⟩)⟩

/-- Another caller takes the block before the woken one has the lock. -/
theorem alloc_run_overtaken : ¬ ∀ (es : List AllocEvent) (s : AllocState ℕ),
    Steps AllocStep (allocStart (poolInit 16 8 8)) es s → AllocSound s es := by
  intro hall
  have htake : AllocStep (⟨poolInit 16 8 8, ⟨[], [2]⟩, []⟩ : AllocState ℕ) (.alloc false 16)
      ⟨⟨[⟨16, 1⟩], 0, 8, 8, 16⟩, ⟨[], [2]⟩, [16]⟩ := .call (by decide) (by decide)
  have hresume : AllocStep (⟨⟨[⟨16, 1⟩], 0, 8, 8, 16⟩, ⟨[], [2]⟩, [16]⟩ : AllocState ℕ)
      (.alloc true 0) ⟨⟨[⟨16, 1⟩], 0, 8, 8, 16⟩, .none, [16]⟩ :=
    .resume (.gets (a := []) (b := [])) (by decide)
  have hrun := ((exists_handOver.mono fun _ _ _ h => h.1).snoc htake).snoc hresume
  exact (hall _ _ hrun).1 true (by simp)

end Mpool
