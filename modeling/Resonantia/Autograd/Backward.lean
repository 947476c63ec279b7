import Mathlib.Algebra.BigOperators.Ring.Finset
import Mathlib.Algebra.Module.LinearMap.End
import Mathlib.Algebra.Module.Pi
import Mathlib.Data.Int.Order.Basic
import Mathlib.Data.List.Basic
import Mathlib.Tactic.Ring
import Resonantia.Library.ReverseMode

/-!
# Reverse-mode differentiation

The training code records every operation on tensors as a node with its operands as parents and a
function that adds to the gradients of the operands what its own gradient contributes.
`Graph.backward` lists the nodes below a loss by a depth-first search over the parents, clears
their gradients, sets that of the loss to one, and runs the functions from the loss on. Numbers are
taken from a commutative ring; what an operation contributes to an operand is a linear map of
buffers, its local derivative.

## Main definitions

* `Resonantia.Autograd.Node`, `Resonantia.Autograd.Graph`: recorded operations.
* `Graph.add`, `Graph.mul`, `Graph.matmul`, `Graph.sum`, `Graph.scale`, `Graph.actOp`,
  `Graph.transpose2d`, `Graph.concatRows`, `Graph.sliceRows`, `Graph.record`: the operations.
* `Graph.backward`: the sweep, with the functions that it ran.
* `Graph.Differentiated`: what a sweep has to do.

## Main results

* `Graph.backward_differentiates`: every sweep does so, on every graph.
* `Graph.gradient_record`, `Graph.backward_square`: the gradients of one operation, and of a square.
-/

namespace Resonantia.Autograd

/-! ### Tensors -/

/-- The content of a device buffer, by position. -/
abbrev Buffer (R : Type*) := ℕ → R

/-- The local derivative of an operation at an operand: what the gradient of the result adds to the
gradient of the operand. -/
abbrev LocalProduct (R : Type*) [CommRing R] := Module.End R (Buffer R)

/-- `Node::numel`: the product of the dimensions, which has to fit into 64 bits. -/
def numel (shape : List ℤ) : Except String ℤ :=
  shape.foldlM (fun n s =>
    if s ≤ 0 then throw "tensor dimensions must be positive"
    else if n > (2 ^ 63 - 1) / s then throw "tensor shape product overflow"
    else pure (n * s)) 1

/-- Shapes that `make_node` accepts. -/
structure Shape where
  dims : List ℤ
  size : ℕ
  ne_nil : dims ≠ []
  numel_eq : numel dims = .ok size
  size_le : size ≤ 2147483647

/-- The checks of `make_node`. -/
def makeShape (dims : List ℤ) : Except String Shape :=
  if hnil : dims = [] then throw "tensor shape cannot be empty"
  else
    match hnumel : numel dims with
    | .error message => throw message
    | .ok n =>
      if hn : n > 2147483647 then throw "tensor exceeds CUDA kernel index range"
      else if hpos : 0 ≤ n then
        pure ⟨dims, n.toNat, hnil, by rw [hnumel, Int.toNat_of_nonneg hpos], by omega⟩
      else throw "tensor dimensions must be positive"

/-- A node without its gradient buffer: a result with the operation that computed it. -/
structure Node (R : Type*) [CommRing R] where
  data : Buffer R
  shape : Shape
  requiresGrad : Bool := false
  parents : List ℕ := []
  /-- The parents to whose gradients the function adds, each with its local derivative. -/
  backwardFn : Option (List (ℕ × LocalProduct R)) := none

/-- The contributions of a node. -/
def Node.edges {R : Type*} [CommRing R] (node : Node R) : List (ℕ × LocalProduct R) :=
  node.backwardFn.getD []

/-- The nodes in the order in which they were recorded. The operands of an operation are older than
its result, and its function adds to their gradients, one after the other. -/
structure Graph (R : Type*) [CommRing R] where
  nodes : List (Node R)
  parents_lt : ∀ i (hi : i < nodes.length), ∀ p ∈ nodes[i].parents, p < i
  targets : ∀ node ∈ nodes, node.edges.map Prod.fst = node.parents

/-- The gradient buffers of the nodes; a node has none before its first sweep. -/
abbrev Gradients (R : Type*) := ℕ → Option (Buffer R)

namespace Graph

variable {R : Type*} [CommRing R]

/-- Tensors of a graph. -/
abbrev Tensor (g : Graph R) := Fin g.nodes.length

variable (g : Graph R)

/-- The node of a tensor. -/
def node (t : g.Tensor) : Node R := g.nodes[t]

def parentsOf (u : ℕ) : List ℕ := (g.nodes[u]?.map Node.parents).getD []

def edgesOf (u : ℕ) : List (ℕ × LocalProduct R) := (g.nodes[u]?.map Node.edges).getD []

theorem lt_of_mem_parentsOf {u p : ℕ} (h : p ∈ g.parentsOf u) : p < u := by
  rw [parentsOf] at h
  by_cases hu : u < g.nodes.length
  · rw [List.getElem?_eq_getElem hu] at h
    exact g.parents_lt u hu p h
  · rw [List.getElem?_eq_none (not_lt.1 hu)] at h
    exact nomatch h

theorem map_fst_edgesOf (u : ℕ) : (g.edgesOf u).map Prod.fst = g.parentsOf u := by
  rw [edgesOf, parentsOf]
  by_cases hu : u < g.nodes.length
  · rw [List.getElem?_eq_getElem hu]
    exact g.targets _ (List.getElem_mem hu)
  · rw [List.getElem?_eq_none (not_lt.1 hu)]
    rfl

/-! ### Operations -/

/-- `any_requires_grad`. -/
def anyRequiresGrad (ts : List g.Tensor) : Bool :=
  ts.any fun t => (g.node t).requiresGrad || !(g.node t).parents.isEmpty

/-- The graph with one more node. -/
def push (result : Node R) (hparents : ∀ p ∈ result.parents, p < g.nodes.length)
    (htargets : result.edges.map Prod.fst = result.parents) : Graph R where
  nodes := g.nodes ++ [result]
  parents_lt i hi p hp := by
    rw [List.length_append, List.length_singleton] at hi
    rcases Nat.lt_succ_iff_lt_or_eq.1 hi with hi | rfl
    · rw [List.getElem_append_left hi] at hp
      exact g.parents_lt i hi p hp
    · rw [List.getElem_append_right le_rfl, List.getElem_singleton] at hp
      exact hparents p hp
  targets node hnode := by
    rcases List.mem_append.1 hnode with hnode | hnode
    · exact g.targets node hnode
    · rw [List.mem_singleton.1 hnode]
      exact htargets

/-- An operation with its result, its operands and the local derivatives at them. All operations
of the library record themselves in this way. -/
def record (dims : List ℤ) (data : Buffer R) (requiresGrad : Bool)
    (operands : List (g.Tensor × LocalProduct R)) : Except String (Graph R) :=
  (makeShape dims).map fun shape =>
    g.push
      { data, shape, requiresGrad
        parents := operands.map fun e => e.1.1
        backwardFn := some (operands.map fun e => (e.1.1, e.2)) }
      (fun p hp => by
        obtain ⟨e, -, rfl⟩ := List.mem_map.1 hp
        exact e.1.2)
      List.map_map

/-- `Tensor::from_host`. -/
def fromHost (values : List R) (dims : List ℤ) (requiresGrad : Bool) :
    Except String (Graph R) :=
  (makeShape dims).bind fun shape =>
    if values.length ≠ shape.size then throw "Tensor::from_host data size does not match shape"
    else
      pure (g.push { data := fun i => values.getD i 0, shape, requiresGrad }
        (fun _ hp => nomatch hp) rfl)

/-- `k_acc_mul`: the gradient times the elements of a buffer; `k_acc` with ones. -/
def accMul (n : ℕ) (x : Buffer R) : LocalProduct R where
  toFun dy i := if i < n then dy i * x i else 0
  map_add' dy dy' := by
    funext i
    by_cases h : i < n <;> simp [h, add_mul]
  map_smul' c dy := by
    funext i
    by_cases h : i < n <;> simp [h, mul_assoc]

/-- `k_acc`: the gradient itself, from one offset to another. -/
def acc (n fromOffset toOffset : ℕ) : LocalProduct R where
  toFun dy i := if toOffset ≤ i ∧ i < toOffset + n then dy (i - toOffset + fromOffset) else 0
  map_add' dy dy' := by
    funext i
    by_cases h : toOffset ≤ i ∧ i < toOffset + n <;> simp [h]
  map_smul' c dy := by
    funext i
    by_cases h : toOffset ≤ i ∧ i < toOffset + n <;> simp [h]

/-- `k_acc_bcast`: the gradient of a single number, for every element. -/
def accBcast (n : ℕ) : LocalProduct R where
  toFun dy i := if i < n then dy 0 else 0
  map_add' dy dy' := by
    funext i
    by_cases h : i < n <;> simp [h]
  map_smul' c dy := by
    funext i
    by_cases h : i < n <;> simp [h]

/-- `gemm_rm`: the product of two matrices in row-major order, either of them transposed. -/
def gemmRm (transA transB : Bool) (M N K : ℕ) (A B : Buffer R) : Buffer R := fun i =>
  if i < M * N then
    ∑ k ∈ Finset.range K,
      A (if transA then k * M + i / N else i / N * K + k) *
        B (if transB then i % N * K + k else k * N + i % N)
  else 0

/-- `gemm_rm` with the gradient on the left. -/
def gemmLeft (transA transB : Bool) (M N K : ℕ) (B : Buffer R) : LocalProduct R where
  toFun dy := gemmRm transA transB M N K dy B
  map_add' dy dy' := by
    funext i
    by_cases h : i < M * N <;> simp [gemmRm, h, add_mul, Finset.sum_add_distrib]
  map_smul' c dy := by
    funext i
    by_cases h : i < M * N <;> simp [gemmRm, h, mul_assoc, Finset.mul_sum]

/-- `gemm_rm` with the gradient on the right. -/
def gemmRight (transA transB : Bool) (M N K : ℕ) (A : Buffer R) : LocalProduct R where
  toFun dy := gemmRm transA transB M N K A dy
  map_add' dy dy' := by
    funext i
    by_cases h : i < M * N <;> simp [gemmRm, h, mul_add, Finset.sum_add_distrib]
  map_smul' c dy := by
    funext i
    by_cases h : i < M * N <;> simp [gemmRm, h, mul_left_comm, Finset.mul_sum]

/-- `k_transpose_acc`. -/
def transposeAcc (rows cols : ℕ) : LocalProduct R where
  toFun dy i := if i < rows * cols then dy (i % cols * rows + i / cols) else 0
  map_add' dy dy' := by
    funext i
    by_cases h : i < rows * cols <;> simp [h]
  map_smul' c dy := by
    funext i
    by_cases h : i < rows * cols <;> simp [h]

def add (a b : g.Tensor) : Except String (Graph R) := do
  if (g.node a).shape.dims ≠ (g.node b).shape.dims then throw "add requires equal shapes"
  let n := (g.node a).shape.size
  g.record (g.node a).shape.dims (fun i => (g.node a).data i + (g.node b).data i)
    (g.anyRequiresGrad [a, b]) [(a, acc n 0 0), (b, acc n 0 0)]

def mul (a b : g.Tensor) : Except String (Graph R) := do
  if (g.node a).shape.dims ≠ (g.node b).shape.dims then throw "mul requires equal shapes"
  let n := (g.node a).shape.size
  g.record (g.node a).shape.dims (fun i => (g.node a).data i * (g.node b).data i)
    (g.anyRequiresGrad [a, b]) [(a, accMul n (g.node b).data), (b, accMul n (g.node a).data)]

def matmul (a b : g.Tensor) : Except String (Graph R) :=
  match (g.node a).shape.dims, (g.node b).shape.dims with
  | [m, k], [k', n] =>
    if k ≠ k' then throw "matmul inner dimensions do not match"
    else
      let (M, K, N) := (m.toNat, k.toNat, n.toNat)
      g.record [m, n] (gemmRm false false M N K (g.node a).data (g.node b).data)
        (g.anyRequiresGrad [a, b])
        [(a, gemmLeft false true M K N (g.node b).data),
          (b, gemmRight true false K N M (g.node a).data)]
  | [_, _], _ => throw "matmul rhs has the wrong rank"
  | _, _ => throw "matmul lhs has the wrong rank"

def sum (a : g.Tensor) : Except String (Graph R) :=
  let n := (g.node a).shape.size
  g.record [1] (fun _ => ∑ i ∈ Finset.range n, (g.node a).data i) (g.anyRequiresGrad [a])
    [(a, accBcast n)]

def scale (x : g.Tensor) (s : R) : Except String (Graph R) :=
  let n := (g.node x).shape.size
  g.record (g.node x).shape.dims (fun i => (g.node x).data i * s) (g.anyRequiresGrad [x])
    [(x, accMul n fun _ => s)]

/-- Activations: an operation on the elements, with its derivative from the operand or from the
result. -/
def actOp (x : g.Tensor) (fwd bwd : R → R) (useOutput : Bool) : Except String (Graph R) :=
  let out : Buffer R := fun i => fwd ((g.node x).data i)
  let ref := if useOutput then out else (g.node x).data
  g.record (g.node x).shape.dims out (g.anyRequiresGrad [x])
    [(x, accMul (g.node x).shape.size fun i => bwd (ref i))]

def transpose2d (x : g.Tensor) (rows cols : ℤ) : Except String (Graph R) := do
  if rows ≤ 0 ∨ cols ≤ 0 then throw "transpose2d dimensions must be positive"
  if (g.node x).shape.size ≠ rows * cols then
    throw "transpose2d input size does not match declared dimensions"
  g.record [cols, rows]
    (fun i => (g.node x).data (i % rows.toNat * cols.toNat + i / rows.toNat))
    (g.anyRequiresGrad [x]) [(x, transposeAcc rows.toNat cols.toNat)]

def concatRows (a b : g.Tensor) (cols : ℤ) : Except String (Graph R) := do
  let (na, nb) := ((g.node a).shape.size, (g.node b).shape.size)
  if cols ≤ 0 ∨ na % cols ≠ 0 ∨ nb % cols ≠ 0 then
    throw "concat_rows inputs do not match column count"
  g.record [na / cols + nb / cols, cols]
    (fun i => if i < na then (g.node a).data i else (g.node b).data (i - na))
    (g.anyRequiresGrad [a, b]) [(a, acc na 0 0), (b, acc nb na 0)]

def sliceRows (x : g.Tensor) (start count cols : ℤ) : Except String (Graph R) := do
  let size := (g.node x).shape.size
  if cols ≤ 0 ∨ start < 0 ∨ count ≤ 0 ∨ size % cols ≠ 0 then
    throw "invalid slice_rows parameters"
  if start + count > size / cols then throw "slice_rows exceeds input"
  let n := (count * cols).toNat
  let off := (start * cols).toNat
  g.record [count, cols] (fun i => (g.node x).data (i + off)) (g.anyRequiresGrad [x])
    [(x, acc n 0 off)]

/-! ### The sweep -/

/-- `dfs`: the depth-first search over the parents. -/
def dfs (u : ℕ) (s : ReverseMode.Dag.Search ℕ) : ReverseMode.Dag.Search ℕ :=
  if u ∈ s.visited then s
  else
    let s := (g.parentsOf u).attach.foldl (fun s p => dfs p.1 s)
      { s with visited := u :: s.visited }
    { s with finished := s.finished ++ [u] }
termination_by u
decreasing_by exact g.lt_of_mem_parentsOf p.2

def topo (loss : g.Tensor) : List ℕ := (g.dfs loss.1 {}).finished

/-- The ones with which the gradient of the loss is overwritten. -/
def ones (n : ℕ) : Buffer R := fun i => if i < n then 1 else 0

/-- The gradients at the start of the sweep: `ensure_grad` for all nodes, ones for the loss. -/
def start (loss : g.Tensor) (grads : Gradients R) : Gradients R :=
  let cleared := (g.topo loss).foldl (fun grads u => Function.update grads u (some 0)) grads
  Function.update cleared loss.1 (some (ones (g.node loss).shape.size))

/-- The gradients, and the nodes whose function has run. -/
structure Run (R : Type*) where
  grads : Gradients R
  log : List ℕ := []

/-- A function adds to the gradient of one parent. There is no result where a buffer is missing. -/
def accumulate (o : ℕ) (grads : Gradients R) (e : ℕ × LocalProduct R) : Option (Gradients R) :=
  (grads o).bind fun dy => (grads e.1).map fun dx =>
    Function.update grads e.1 (some (dx + e.2 dy))

def runBackwardFn (run : Run R) (o : ℕ) : Option (Run R) :=
  match g.nodes[o]?.bind Node.backwardFn with
  | none => some run
  | some edges => (edges.foldlM (accumulate o) run.grads).map fun grads =>
      { grads, log := run.log ++ [o] }

/-- `backward`. -/
def backward (loss : g.Tensor) (grads : Gradients R) : Option (Run R) :=
  (g.topo loss).reverse.foldlM g.runBackwardFn { grads := g.start loss grads }

/-! ### What the sweep does -/

/-- The recorded operations as a weighted graph. -/
def dag : ReverseMode.Dag ℕ (LocalProduct R) where
  edges := g.edgesOf
  rank := id
  rank_lt {u e} he := by
    have hmem : e.1 ∈ (g.edgesOf u).map Prod.fst := List.mem_map_of_mem he
    rw [g.map_fst_edgesOf u] at hmem
    exact g.lt_of_mem_parentsOf hmem

/-- The loss has been computed from the node. -/
def Reachable (loss : g.Tensor) (v : ℕ) : Prop :=
  Relation.ReflTransGen (fun u p => p ∈ g.parentsOf u) loss.1 v

/-- The node has a function. -/
def hasBackward (u : ℕ) : Bool := (g.nodes[u]?.bind Node.backwardFn).isSome

/-- A sweep as it should be. Every path from the loss to a node contributes the product of the local
derivatives along it. -/
structure Differentiated (loss : g.Tensor) (old : Gradients R) (run : Run R) : Prop where
  nodup : (g.topo loss).Nodup
  visits : ∀ v, v ∈ g.topo loss ↔ g.Reachable loss v
  start : ∀ v, g.Reachable loss v →
    g.start loss old v = some (if v = loss.1 then ones (g.node loss).shape.size else 0)
  log_nodup : run.log.Nodup
  mem_log : ∀ v, v ∈ run.log ↔ g.Reachable loss v ∧ g.hasBackward v = true
  consumers : ∀ done v rest, run.log = done ++ v :: rest →
    ∀ u, g.Reachable loss u → v ∈ g.parentsOf u → u ∈ done
  gradient : ∀ v, g.Reachable loss v →
    run.grads v = some (∑ path ∈ g.dag.paths loss.1 v,
      g.dag.weight loss.1 path (ones (g.node loss).shape.size))
  kept : ∀ v, ¬ g.Reachable loss v → run.grads v = old v

variable {g}

theorem edge_dag {u v : ℕ} : g.dag.Edge u v ↔ v ∈ g.parentsOf u := by
  rw [← g.map_fst_edgesOf u, List.mem_map]
  rfl

theorem reaches_dag {loss : g.Tensor} {v : ℕ} : g.dag.Reaches loss.1 v ↔ g.Reachable loss v := by
  have h : g.dag.Edge = fun u p => p ∈ g.parentsOf u := by
    funext u p
    exact propext edge_dag
  rw [ReverseMode.Dag.Reaches, h]
  rfl

theorem foldl_attach {α β : Type*} (f : β → α → β) (l : List α) (b : β) :
    l.attach.foldl (fun b a => f b a.1) b = l.foldl f b := by
  conv_rhs => rw [← List.attach_map_subtype_val l, List.foldl_map]

/-- The search over the parents is the one over the edges. -/
theorem dfs_eq (u : ℕ) (s : ReverseMode.Dag.Search ℕ) : g.dfs u s = g.dag.visit u s := by
  induction u using Nat.strong_induction_on generalizing s with
  | _ u ih =>
    rw [dfs, ReverseMode.Dag.visit]
    split_ifs with hu
    · rfl
    · have hfold : ∀ (l : List (ℕ × LocalProduct R)), (∀ e ∈ l, e.1 < u) → ∀ s,
          (l.map Prod.fst).foldl (fun s p => g.dfs p s) s =
            l.foldl (fun s e => g.dag.visit e.1 s) s := by
        intro l hl
        induction l with
        | nil => exact fun _ => rfl
        | cons e l ihl =>
          intro s
          rw [List.map_cons, List.foldl_cons, List.foldl_cons, ih e.1 (hl e List.mem_cons_self),
            ihl fun e he => hl e (List.mem_cons_of_mem _ he)]
      have hedges := hfold (g.dag.edges u) (fun e he => g.dag.rank_lt he)
        { s with visited := u :: s.visited }
      rw [foldl_attach (fun s p => g.dfs p s), ← g.map_fst_edgesOf u,
        foldl_attach (fun s (e : ℕ × LocalProduct R) => g.dag.visit e.1 s)]
      exact congrArg (fun t : ReverseMode.Dag.Search ℕ =>
        { t with finished := t.finished ++ [u] }) hedges

theorem topo_eq (loss : g.Tensor) : g.topo loss = g.dag.postOrder loss.1 := by
  rw [topo, dfs_eq, ReverseMode.Dag.postOrder]

/-- Gradient buffers at the nodes of a list, and the old ones at the others. -/
def buffers (order : List ℕ) (old : Gradients R) (value : ℕ → Buffer R) : Gradients R :=
  fun v => if v ∈ order then some (value v) else old v

omit [CommRing R] in
theorem buffers_of_mem {order : List ℕ} {old : Gradients R} {value : ℕ → Buffer R} {v : ℕ}
    (h : v ∈ order) : buffers order old value v = some (value v) := if_pos h

omit [CommRing R] in
theorem buffers_of_not_mem {order : List ℕ} {old : Gradients R} {value : ℕ → Buffer R} {v : ℕ}
    (h : v ∉ order) : buffers order old value v = old v := if_neg h

omit [CommRing R] in
theorem update_buffers {order : List ℕ} {old : Gradients R} {value : ℕ → Buffer R} {v : ℕ}
    (h : v ∈ order) (x : Buffer R) :
    Function.update (buffers order old value) v (some x) =
      buffers order old (Function.update value v x) := by
  funext w
  by_cases hw : w = v
  · subst hw
    rw [Function.update_self, buffers_of_mem h, Function.update_self]
  · rw [Function.update_of_ne hw]
    simp only [buffers, Function.update_of_ne hw]

/-- The gradient of the loss is one at the start, those of the other nodes zero. -/
theorem start_eq (loss : g.Tensor) (old : Gradients R) (hloss : loss.1 ∈ g.topo loss) :
    g.start loss old = buffers (g.topo loss) old fun v =>
      if v = loss.1 then ones (g.node loss).shape.size else 0 := by
  have hcleared : ∀ (l : List ℕ) (grads : Gradients R) (v : ℕ),
      l.foldl (fun grads u => Function.update grads u (some 0)) grads v =
        if v ∈ l then some 0 else grads v := by
    intro l
    induction l with
    | nil => exact fun _ _ => (if_neg (List.not_mem_nil)).symm
    | cons u l ih =>
      intro grads v
      rw [List.foldl_cons, ih]
      by_cases hv : v = u
      · subst hv
        simp
      · simp [hv]
  funext v
  rw [start]
  by_cases hv : v = loss.1
  · subst hv
    rw [Function.update_self, buffers_of_mem hloss, if_pos rfl]
  · rw [Function.update_of_ne hv, hcleared]
    simp only [buffers, if_neg hv]

/-- A function adds to the gradients of the parents what their edges say. -/
theorem foldlM_accumulate {order : List ℕ} {old : Gradients R} {o : ℕ} (ho : o ∈ order)
    (edges : List (ℕ × LocalProduct R)) (hedges : ∀ e ∈ edges, e.1 ∈ order)
    (value : ℕ → Buffer R) :
    edges.foldlM (accumulate o) (buffers order old value) =
      some (buffers order old (edges.foldl
        (fun value e => Function.update value e.1 (value e.1 + e.2 • value o)) value)) := by
  induction edges generalizing value with
  | nil => rfl
  | cons e edges ih =>
    have he : e.1 ∈ order := hedges e List.mem_cons_self
    rw [List.foldlM_cons, accumulate, buffers_of_mem ho, buffers_of_mem he, Option.bind_some,
      Option.map_some, update_buffers he, Option.bind_eq_bind, Option.bind_some, List.foldl_cons]
    exact ih (fun e he => hedges e (List.mem_cons_of_mem _ he)) _

/-- The run of the function of one node. -/
theorem runBackwardFn_eq {order log : List ℕ} {old : Gradients R} {o : ℕ} (ho : o ∈ order)
    (hedges : ∀ p ∈ g.parentsOf o, p ∈ order) (value : ℕ → Buffer R) :
    g.runBackwardFn { grads := buffers order old value, log } o =
      some { grads := buffers order old (g.dag.spread o value)
             log := log ++ [o].filter g.hasBackward } := by
  have hedges' : ∀ e ∈ g.edgesOf o, e.1 ∈ order := fun e he => hedges e.1 <| by
    rw [← g.map_fst_edgesOf o]
    exact List.mem_map_of_mem he
  rw [runBackwardFn]
  cases hfn : g.nodes[o]?.bind Node.backwardFn with
  | none =>
    have hnone : g.edgesOf o = [] := by
      rw [edgesOf]
      cases hnode : g.nodes[o]? with
      | none => rfl
      | some node =>
        rw [hnode, Option.bind_some] at hfn
        rw [Option.map_some, Option.getD_some, Node.edges, hfn, Option.getD_none]
    have hlog : [o].filter g.hasBackward = [] := by simp [hasBackward, hfn]
    rw [hlog, List.append_nil, ReverseMode.Dag.spread, show g.dag.edges o = [] from hnone]
    rfl
  | some edges =>
    have hsome : g.edgesOf o = edges := by
      obtain ⟨node, hnode, hnode'⟩ := Option.bind_eq_some_iff.1 hfn
      rw [edgesOf, hnode, Option.map_some, Option.getD_some, Node.edges, hnode', Option.getD_some]
    have hlog : [o].filter g.hasBackward = [o] := by simp [hasBackward, hfn]
    dsimp only
    rw [← hsome, foldlM_accumulate ho (g.edgesOf o) hedges', hlog]
    rfl

/-- The run over a part of the list. -/
theorem foldlM_runBackwardFn {order : List ℕ} {old : Gradients R}
    (hclosed : ∀ u ∈ order, ∀ p ∈ g.parentsOf u, p ∈ order) (l : List ℕ)
    (hl : ∀ u ∈ l, u ∈ order) (value : ℕ → Buffer R) (log : List ℕ) :
    l.foldlM g.runBackwardFn { grads := buffers order old value, log } =
      some { grads := buffers order old (g.dag.sweep l value)
             log := log ++ l.filter g.hasBackward } := by
  induction l generalizing value log with
  | nil => simp [ReverseMode.Dag.sweep]
  | cons u l ih =>
    have hu : u ∈ order := hl u List.mem_cons_self
    rw [List.foldlM_cons, runBackwardFn_eq hu (hclosed u hu), Option.bind_eq_bind,
      Option.bind_some, ih fun v hv => hl v (List.mem_cons_of_mem _ hv)]
    simp only [ReverseMode.Dag.sweep, List.foldl_cons, List.append_assoc, ← List.filter_append,
      List.singleton_append]

/-- Nodes with parents have a function. -/
theorem hasBackward_of_mem_parentsOf {u p : ℕ} (h : p ∈ g.parentsOf u) :
    g.hasBackward u = true := by
  rw [← g.map_fst_edgesOf u, edgesOf] at h
  cases hnode : g.nodes[u]? with
  | none => rw [hnode] at h; exact nomatch h
  | some node =>
    rw [hnode, Option.map_some, Option.getD_some, Node.edges] at h
    rw [hasBackward, hnode, Option.bind_some]
    cases hfn : node.backwardFn with
    | none => rw [hfn] at h; exact nomatch h
    | some edges => rfl

/-- The functions run in an order in which every node comes behind its sources. -/
theorem mem_done_of_edge {order done rest : List ℕ} (h : g.dag.Ordered order) {u v : ℕ}
    (hsplit : order.reverse.filter g.hasBackward = done ++ v :: rest) (hu : u ∈ order)
    (hparent : v ∈ g.parentsOf u) : u ∈ done := by
  obtain ⟨first, second, horder, hfirst, hsecond⟩ := List.filter_eq_append_iff.1 hsplit
  obtain ⟨third, fourth, rfl, hthird, -, -⟩ := List.filter_eq_cons_iff.1 hsecond
  have horder' : order = fourth.reverse ++ v :: (first ++ third).reverse := by
    rw [← List.reverse_reverse order, horder]
    simp
  have hmem := h.source_mem horder' hu (edge_dag.2 hparent)
  have hran : u ∈ (first ++ third).filter g.hasBackward :=
    List.mem_filter.2 ⟨List.mem_reverse.1 hmem, hasBackward_of_mem_parentsOf hparent⟩
  rw [List.filter_append, hfirst, List.filter_eq_nil_iff.2 hthird, List.append_nil] at hran
  exact hran

/-- **Reverse-mode differentiation.** On every graph, for every loss and whatever gradients earlier
sweeps have left, the sweep runs to its end and does what it should. -/
theorem backward_differentiates (g : Graph R) (loss : g.Tensor) (old : Gradients R) :
    ∃ run, g.backward loss old = some run ∧ g.Differentiated loss old run := by
  obtain ⟨hordered, hmem⟩ := g.dag.postOrder_spec loss.1
  simp only [reaches_dag] at hmem
  rw [← topo_eq] at hordered hmem
  have hloss : loss.1 ∈ g.topo loss := (hmem loss.1).2 Relation.ReflTransGen.refl
  have hclosed : ∀ u ∈ g.topo loss, ∀ p ∈ g.parentsOf u, p ∈ g.topo loss := fun u hu p hp =>
    hordered.mem_of_edge hu (edge_dag.2 hp)
  refine ⟨_, by rw [backward, start_eq loss old hloss,
    foldlM_runBackwardFn hclosed _ fun u hu => List.mem_reverse.1 hu], ?_⟩
  refine
    { nodup := hordered.nodup
      visits := hmem
      start := fun v hv => by
        rw [start_eq loss old hloss, buffers_of_mem ((hmem v).2 hv)]
      log_nodup := (List.nodup_reverse.2 hordered.nodup).filter _
      mem_log := fun v => by simp [hmem v]
      consumers := fun done v rest hsplit u hu hparent => ?_
      gradient := fun v hv => ?_
      kept := fun v hv => buffers_of_not_mem fun h => hv ((hmem v).1 h) }
  · exact mem_done_of_edge hordered hsplit ((hmem u).2 hu) hparent
  · have hstart : ∀ u, g.dag.Reaches loss.1 u → u ≠ loss.1 →
        (fun u => if u = loss.1 then ones (g.node loss).shape.size else (0 : Buffer R)) u = 0 :=
      fun u _ hu => if_neg hu
    have hsweep := ReverseMode.Dag.sweep_postOrder hstart v
    rw [← topo_eq, if_pos ((hmem v).2 hv), if_pos rfl] at hsweep
    dsimp only
    rw [buffers_of_mem ((hmem v).2 hv), hsweep, ReverseMode.Dag.total, Finset.sum_smul]
    rfl

/-! ### The gradients of an operation -/

section Record

variable {dims : List ℤ} {data : Buffer R} {requiresGrad : Bool}
  {operands : List (g.Tensor × LocalProduct R)} {g' : Graph R} {loss : g'.Tensor}

theorem dims_of_makeShape {shape : Shape} (h : makeShape dims = .ok shape) : shape.dims = dims := by
  rw [makeShape] at h
  split_ifs at h
  split at h
  · cases h
  · split_ifs at h
    exact Except.ok.inj h ▸ rfl

/-- The node of the result. -/
theorem getElem?_record (h : g.record dims data requiresGrad operands = .ok g') :
    ∃ node : Node R, g'.nodes[g.nodes.length]? = some node ∧ node.shape.dims = dims ∧
      node.edges = operands.map fun e => (e.1.1, e.2) := by
  rw [record] at h
  cases hshape : makeShape dims with
  | error message =>
    rw [hshape] at h
    cases h
  | ok shape =>
    rw [hshape] at h
    obtain rfl := Except.ok.inj h
    exact ⟨_, List.getElem?_concat_length, dims_of_makeShape hshape, rfl⟩

/-- The result has the size that its shape gives. -/
theorem size_record (h : g.record dims data requiresGrad operands = .ok g')
    (hloss : loss.1 = g.nodes.length) {shape : Shape} (hdims : shape.dims = dims) :
    (g'.node loss).shape.size = shape.size := by
  obtain ⟨node, hnode, hshape, -⟩ := getElem?_record h
  have hresult : g'.node loss = node := by
    rw [← hloss, List.getElem?_eq_getElem loss.2] at hnode
    exact Option.some.inj hnode
  have hnumel := (g'.node loss).shape.numel_eq
  rw [hresult, hshape, ← hdims, shape.numel_eq] at hnumel
  rw [hresult]
  exact (Int.ofNat.inj (Except.ok.inj hnumel)).symm

/-- An operand gets the derivatives of all its occurrences, and those of the operands that are
computed from it. -/
theorem gradient_record (h : g.record dims data requiresGrad operands = .ok g')
    (hloss : loss.1 = g.nodes.length) (old : Gradients R) {x : g.Tensor}
    (hx : x ∈ operands.map Prod.fst) :
    ∃ run, g'.backward loss old = some run ∧ run.grads x.1 =
      some ((operands.map fun e => g'.dag.total e.1.1 x.1 * e.2).sum
        (ones (g'.node loss).shape.size)) := by
  obtain ⟨run, hrun, hdifferentiated⟩ := g'.backward_differentiates loss old
  have hedges : g'.dag.edges loss.1 = operands.map fun e => (e.1.1, e.2) := by
    obtain ⟨node, hnode, -, hnodeEdges⟩ := getElem?_record h
    rw [← hloss] at hnode
    change (g'.nodes[loss.1]?.map Node.edges).getD [] = _
    rw [hnode, Option.map_some, Option.getD_some, hnodeEdges]
  have hparent : x.1 ∈ g'.parentsOf loss.1 := by
    obtain ⟨e, he, rfl⟩ := List.mem_map.1 hx
    refine edge_dag.1 ⟨(e.1.1, e.2), ?_, rfl⟩
    rw [hedges]
    exact List.mem_map_of_mem he
  have hne : loss.1 ≠ x.1 := fun heq => (g'.lt_of_mem_parentsOf hparent).ne heq.symm
  have htotal : g'.dag.total loss.1 x.1 =
      (operands.map fun e => g'.dag.total e.1.1 x.1 * e.2).sum := by
    rw [ReverseMode.Dag.total_eq_sum_map, if_neg hne, zero_add, hedges, List.map_map]
    rfl
  refine ⟨run, hrun, ?_⟩
  rw [hdifferentiated.gradient x.1 (Relation.ReflTransGen.single hparent), ← htotal]
  change _ = some (g'.dag.total loss.1 x.1 • ones (g'.node loss).shape.size)
  rw [ReverseMode.Dag.total, Finset.sum_smul]
  rfl

/-- **The square.** The sweep from the product of a tensor with itself gives twice the tensor. -/
theorem backward_square {x : g.Tensor} (h : g.mul x x = .ok g')
    (hloss : loss.1 = g.nodes.length) (old : Gradients R) :
    ∃ run, g'.backward loss old = some run ∧ run.grads x.1 =
      some fun i => if i < (g.node x).shape.size then 2 * (g.node x).data i else 0 := by
  rw [mul, if_neg (not_not.2 rfl)] at h
  obtain ⟨run, hrun, hgrads⟩ := gradient_record h hloss old
    (x := x) (List.mem_map.2 ⟨_, List.mem_cons_self, rfl⟩)
  refine ⟨run, hrun, hgrads.trans (congrArg some (funext fun i => ?_))⟩
  have hsize : (g'.node loss).shape.size = (g.node x).shape.size := size_record h hloss rfl
  rw [hsize]
  simp only [List.map_cons, List.map_nil, List.sum_cons, List.sum_nil, ReverseMode.Dag.total_self,
    one_mul, add_zero]
  change (if i < (g.node x).shape.size then ones (g.node x).shape.size i * (g.node x).data i else 0) +
    (if i < (g.node x).shape.size then ones (g.node x).shape.size i * (g.node x).data i else 0) = _
  by_cases hi : i < (g.node x).shape.size
  · rw [if_pos hi, if_pos hi, ones, if_pos hi, one_mul, two_mul]
  · rw [if_neg hi, if_neg hi, add_zero]

end Record

end Graph

end Resonantia.Autograd
