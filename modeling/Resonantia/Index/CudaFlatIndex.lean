import Mathlib.Data.List.Sort
import Resonantia.Io.RawSampleSpool
import Resonantia.Library.Scatter
import Resonantia.Library.WorkerPool

/-!
# Search in a flat index

`CudaFlatIndex::search` finds for every query the `k` nearest vectors of the index. Up to four
workers take the queries in strides; each one computes all distances of a query, sorts the first `k`
indices by them, and writes a row of the result. Distances are accumulated as the program does it,
in any type of ordered values with the operations of a `float`.

## Main definitions

* `Index.CudaFlatIndex`: the vectors of an index.
* `Index.PartialSort`: `std::partial_sort`.
* `Index.Search`: what a search may return.
* `Index.NearestNeighbours`: a row of the result.

## Main results

* `Index.search_exact`: every result has the nearest vectors, whatever the workers do.
-/

namespace Resonantia.Index

open Io Pipeline Slices WorkerPool

/-! ### Sorting -/

/-- What a comparison has to be for the sorting functions. -/
structure StrictWeakOrder (less : ℕ → ℕ → Bool) : Prop where
  irrefl : ∀ a, less a a = false
  trans : ∀ a b c, less a b = true → less b c = true → less a c = true
  cotrans : ∀ a b c, less a c = true → less a b = true ∨ less b c = true

/-- `std::partial_sort`: a permutation that begins with the `count` least elements in order. -/
structure PartialSort where
  sort : (ℕ → ℕ → Bool) → ℕ → List ℕ → List ℕ
  perm : ∀ {less} count l, StrictWeakOrder less → count ≤ l.length → (sort less count l).Perm l
  sorted : ∀ {less} count l, StrictWeakOrder less → count ≤ l.length →
    ((sort less count l).take count).Pairwise fun a b => less b a = false
  least : ∀ {less} count l, StrictWeakOrder less → count ≤ l.length →
    ∀ a ∈ (sort less count l).take count, ∀ b ∈ (sort less count l).drop count, less b a = false

theorem strictWeakOrder_lt {D : Type} [LinearOrder D] (f : ℕ → D) :
    StrictWeakOrder fun a b => f a < f b where
  irrefl _ := decide_eq_false (lt_irrefl _)
  trans _ _ _ hab hbc := decide_eq_true ((of_decide_eq_true hab).trans (of_decide_eq_true hbc))
  cotrans a b c hac := by
    rw [decide_eq_true_eq, decide_eq_true_eq]
    rcases lt_or_ge (f a) (f b) with hlt | hge
    · exact Or.inl hlt
    · exact Or.inr (hge.trans_lt (of_decide_eq_true hac))

/-! ### The index -/

/-- `CudaFlatIndex`; an index that is not loaded has no vectors. -/
structure CudaFlatIndex (F : Type) where
  data : List F
  ntotal : ℕ
  dim : ℕ
  length_data : data.length = ntotal * dim

/-- `valid`. -/
def CudaFlatIndex.valid {F : Type} (index : CudaFlatIndex F) : Bool :=
  0 < index.ntotal && 0 < index.dim

section Search

variable {F : Type} [Sample F] [LinearOrder F] [Zero F] [Add F] [Sub F] [Mul F]

/-- The arguments of a search that was not refused. -/
structure Request (F : Type) where
  queries : List F
  queryCount : ℕ
  k : ℕ

/-- `std::vector<float>::max_size`. -/
def maxFloats : ℕ := 2 ^ 61 - 1

/-- `std::vector<int64_t>::max_size`. -/
def maxIndices : ℕ := 2 ^ 60 - 1

/-- The checks of `search`. -/
def check (index : CudaFlatIndex F) (queries : Option (List F)) (nQueries k dim : ℤ) :
    Option (Request F) := do
  let queries ← queries
  if index.valid = false ∨ nQueries ≤ 0 ∨ k ≤ 0 ∨ dim ≤ 0 ∨ dim ≠ index.dim ∨ index.ntotal < k then
    none
  else
    let queryElements ← checkedMul nQueries.toNat dim.toNat
    let resultCount ← checkedMul nQueries.toNat k.toNat
    if maxFloats < resultCount ∨ maxIndices < resultCount then none
    else if (slice queries 0 queryElements).all Sample.isFinite = false then none
    else some ⟨queries, nQueries.toNat, k.toNat⟩

/-- `worker_count`. -/
def workerCount (hardwareConcurrency queryCount databaseCount : ℕ) : ℕ :=
  if 4 ≤ queryCount ∧ 256 ≤ databaseCount then min 4 (max 1 hardwareConcurrency) else 1

/-- The loop that accumulates a distance. -/
def distance (index : CudaFlatIndex F) (queries : List F) (i j : ℕ) : F :=
  (List.range index.dim).foldl (fun distance d =>
    let difference := queries.getD (i * index.dim + d) 0 - index.data.getD (j * index.dim + d) 0
    distance + difference * difference) 0

/-- `distances` of a query. -/
def distances (index : CudaFlatIndex F) (queries : List F) (i : ℕ) : List F :=
  (List.range index.ntotal).map (distance index queries i)

/-- `indices` of a query after sorting. -/
def indices (partialSort : PartialSort) (index : CudaFlatIndex F) (queries : List F) (i k : ℕ) :
    List ℕ :=
  partialSort.sort
    (fun a b => (distances index queries i).getD a 0 < (distances index queries i).getD b 0) k
    (List.range index.ntotal)

/-- The work on the queries: the cells of `result_distances` and `result_indices`. -/
def job (partialSort : PartialSort) (index : CudaFlatIndex F) (request : Request F) (workers : ℕ)
    (hworkers : 0 < workers) : Job (F × ℕ) where
  tasks := request.queryCount
  width := request.k
  workers
  value i j :=
    let position := (indices partialSort index request.queries i request.k).getD j 0
    ((distances index request.queries i).getD position 0, position)
  workers_pos := hworkers

/-- What a search by some workers may return; `none` stands for the empty vectors. -/
inductive Search (partialSort : PartialSort) (index : CudaFlatIndex F) (queries : Option (List F))
    (nQueries k dim : ℤ) (workers : ℕ) (hworkers : 0 < workers) : Option (List F × List ℕ) → Prop
  | refused (h : check index queries nQueries k dim = none) :
      Search partialSort index queries nQueries k dim workers hworkers none
  /-- There is no memory for the result, or a thread cannot be created. -/
  | exhausted : Search partialSort index queries nQueries k dim workers hworkers none
  | returned (request : Request F) (h : check index queries nQueries k dim = some request)
      (s : State (F × ℕ))
      (hrun : Run (job partialSort index request workers hworkers)
        (initial (List.replicate (request.queryCount * request.k) (0, 0))) s)
      (hfinished : Finished (job partialSort index request workers hworkers) s) :
      Search partialSort index queries nQueries k dim workers hworkers
        (if s.failed = true then none else some (s.cells.map Prod.fst, s.cells.map Prod.snd))

/-- The `k` nearest vectors of a query, with their distances. -/
structure NearestNeighbours (index : CudaFlatIndex F) (queries : List F) (i k : ℕ)
    (nearDistances : List F) (near : List ℕ) : Prop where
  length : near.length = k
  nodup : near.Nodup
  lt : ∀ j ∈ near, j < index.ntotal
  distances_eq : nearDistances = near.map (distance index queries i)
  sorted : nearDistances.Pairwise (· ≤ ·)
  nearest : ∀ j < index.ntotal, j ∉ near → ∀ j' ∈ near,
    ¬distance index queries i j < distance index queries i j'

/-! ### One row -/

section Row

variable {partialSort : PartialSort} {index : CudaFlatIndex F} {queries : List F} {i k : ℕ}

omit [Sample F] [LinearOrder F] in
theorem getD_distances {j : ℕ} (h : j < index.ntotal) :
    (distances index queries i).getD j 0 = distance index queries i j :=
  Scatter.getD_map_range _ h 0

omit [Sample F] in
/-- The sorted indices begin with the nearest vectors. -/
theorem nearestNeighbours_take (hk : k ≤ index.ntotal) :
    NearestNeighbours index queries i k
      (((indices partialSort index queries i k).take k).map (distance index queries i))
      ((indices partialSort index queries i k).take k) := by
  have horder := strictWeakOrder_lt fun j => (distances index queries i).getD j 0
  have hlength : k ≤ (List.range index.ntotal).length := by rwa [List.length_range]
  have hperm := partialSort.perm k (List.range index.ntotal) horder hlength
  have hsorted := partialSort.sorted k (List.range index.ntotal) horder hlength
  have hleast := partialSort.least k (List.range index.ntotal) horder hlength
  have hlt : ∀ j ∈ indices partialSort index queries i k, j < index.ntotal := fun j hj =>
    List.mem_range.1 (hperm.mem_iff.1 hj)
  rw [← indices] at hperm hsorted hleast
  refine ⟨?_, ?_, fun j hj => hlt j (List.mem_of_mem_take hj), rfl, ?_, fun j hj hout j' hj' => ?_⟩
  · rw [List.length_take, hperm.length_eq, List.length_range, Nat.min_eq_left hk]
  · exact (hperm.nodup_iff.2 List.nodup_range).sublist (List.take_sublist _ _)
  · rw [List.pairwise_map]
    refine hsorted.imp_of_mem fun {a b} ha hb hab => ?_
    rw [getD_distances (hlt a (List.mem_of_mem_take ha)),
      getD_distances (hlt b (List.mem_of_mem_take hb)), decide_eq_false_iff_not, not_lt] at hab
    exact hab
  · have hmem : j ∈ indices partialSort index queries i k :=
      hperm.mem_iff.2 (List.mem_range.2 hj)
    rw [← List.take_append_drop k (indices partialSort index queries i k)] at hmem
    have hrest := (List.mem_append.1 hmem).resolve_left hout
    have hless := hleast j' hj' j hrest
    rwa [getD_distances hj, getD_distances (hlt j' (List.mem_of_mem_take hj')),
      decide_eq_false_iff_not] at hless

end Row

/-! ### The result -/

section Result

variable {partialSort : PartialSort} {index : CudaFlatIndex F} {queries : Option (List F)}
  {nQueries k dim : ℤ} {workers : ℕ} {hworkers : 0 < workers} {request : Request F}

omit [LinearOrder F] [Zero F] [Add F] [Sub F] [Mul F] in
theorem of_check (h : check index queries nQueries k dim = some request) :
    queries = some request.queries ∧ nQueries = request.queryCount ∧ k = request.k ∧
      0 < request.k ∧ request.k ≤ index.ntotal := by
  cases queries with
  | none => cases h
  | some batch =>
  rw [check, Option.bind_eq_bind, Option.bind_some] at h
  split_ifs at h with hrefused
  simp only [not_or] at hrefused
  obtain ⟨-, hcount, hk, -, -, hle⟩ := hrefused
  obtain ⟨queryElements, -, h⟩ := Option.bind_eq_some_iff.1 h
  obtain ⟨resultCount, -, h⟩ := Option.bind_eq_some_iff.1 h
  split_ifs at h
  obtain rfl := Option.some.inj h
  refine ⟨rfl, ?_, ?_, ?_, ?_⟩
  · dsimp only
    omega
  · dsimp only
    omega
  · dsimp only
    omega
  · dsimp only
    omega

omit [LinearOrder F] [Zero F] [Add F] [Sub F] [Mul F] in
/-- The arguments that are not refused: a batch of finite vectors of the dimension of the index, and
a count of neighbours that the index has. -/
theorem check_of_valid {batch : List F} {queryCount count : ℕ} (hvalid : index.valid = true)
    (hbatch : batch.length = queryCount * index.dim) (hfinite : batch.all Sample.isFinite = true)
    (hsize : batch.length < 2 ^ 64) (hpos : 0 < queryCount) (hcount : 0 < count)
    (hle : count ≤ index.ntotal) (hresult : queryCount * count ≤ maxIndices) :
    check index (some batch) queryCount count index.dim = some ⟨batch, queryCount, count⟩ := by
  have hdim : 0 < index.dim := by
    rw [CudaFlatIndex.valid, Bool.and_eq_true, decide_eq_true_eq, decide_eq_true_eq] at hvalid
    exact hvalid.2
  rw [hbatch] at hsize
  have hmul : queryCount * count < 2 ^ 64 := by
    rw [maxIndices] at hresult
    omega
  have hfloats : ¬(maxFloats < queryCount * count ∨ maxIndices < queryCount * count) := by
    rw [maxFloats]
    rw [maxIndices] at hresult ⊢
    omega
  have hall : (slice batch 0 (queryCount * index.dim)).all Sample.isFinite = true := by
    rw [slice_zero_of_length hbatch]
    exact hfinite
  rw [check, Option.bind_eq_bind, Option.bind_some, if_neg, Int.toNat_natCast, Int.toNat_natCast,
    Int.toNat_natCast, checkedMul_of_lt hsize, checkedMul_of_lt hmul, Option.bind_eq_bind,
    Option.bind_some, Option.bind_some, if_neg hfloats, hall, if_neg (fun h => nomatch h)]
  simp only [not_or]
  refine ⟨?_, ?_, ?_, ?_, ?_, ?_⟩
  · rw [hvalid]
    exact fun h => nomatch h
  · omega
  · omega
  · omega
  · exact not_not.2 rfl
  · omega

/-- The result of a search in which nothing fails, computed by one worker. -/
def answer (partialSort : PartialSort) (index : CudaFlatIndex F) (request : Request F) :
    List F × List ℕ :=
  let cells := table (job partialSort index request 1 Nat.one_pos)
  (cells.map Prod.fst, cells.map Prod.snd)

/-- A search returns nothing else, however many workers there are and whatever they do. -/
theorem eq_answer_of_search {result : Option (List F × List ℕ)}
    (h : Search partialSort index queries nQueries k dim workers hworkers result) :
    result = none ∨ ∃ request, check index queries nQueries k dim = some request ∧
      result = some (answer partialSort index request) := by
  cases h with
  | refused _ => exact Or.inl rfl
  | exhausted => exact Or.inl rfl
  | returned request hcheck s hrun hfinished =>
    by_cases hfailed : s.failed = true
    · exact Or.inl (if_pos hfailed)
    · refine Or.inr ⟨request, hcheck, ?_⟩
      have hcells := cells_of_run (List.length_replicate) hrun hfinished
        (Bool.not_eq_true _ ▸ hfailed)
      rw [if_neg hfailed, hcells]
      rfl

/-- A search can return. -/
theorem search_answer (hcheck : check index queries nQueries k dim = some request) :
    Search partialSort index queries nQueries k dim workers hworkers
      (some (answer partialSort index request)) := by
  obtain ⟨s, hrun, hfinished, hsame⟩ := @exists_finished _
    (job partialSort index request workers hworkers)
    (initial (List.replicate (request.queryCount * request.k) (0, 0)))
  have hfailed : s.failed = false := hsame
  have hcells := cells_of_run (List.length_replicate) hrun hfinished hfailed
  have hreturned : Search partialSort index queries nQueries k dim workers hworkers
      (if s.failed = true then none else some (s.cells.map Prod.fst, s.cells.map Prod.snd)) :=
    .returned request hcheck s hrun hfinished
  rw [hfailed, if_neg Bool.false_ne_true, hcells] at hreturned
  exact hreturned

omit [Sample F] in
/-- **The rows of the result.** -/
theorem nearestNeighbours_answer {i : ℕ} (hi : i < request.queryCount)
    (hk : request.k ≤ index.ntotal) :
    NearestNeighbours index request.queries i request.k
      (slice (answer partialSort index request).1 (i * request.k) ((i + 1) * request.k))
      (slice (answer partialSort index request).2 (i * request.k) ((i + 1) * request.k)) := by
  have hnear := @nearestNeighbours_take F _ _ _ _ _ partialSort index request.queries i _ hk
  have hlength := hnear.length
  have hlt := hnear.lt
  have hposition : ∀ j < request.k,
      (indices partialSort index request.queries i request.k).getD j 0 =
        ((indices partialSort index request.queries i request.k).take request.k).getD j 0 := by
    intro j hj
    rw [List.getD_eq_getElem?_getD, List.getD_eq_getElem?_getD, List.getElem?_take_of_lt hj]
  generalize (indices partialSort index request.queries i request.k).take request.k = near
    at hnear hlength hlt hposition
  have hrow : slice (table (job partialSort index request 1 Nat.one_pos)) (i * request.k)
      ((i + 1) * request.k) = near.map fun p => (distance index request.queries i p, p) := by
    have htable : slice (table (job partialSort index request 1 Nat.one_pos)) (i * request.k)
        ((i + 1) * request.k) = (List.range request.k).map fun j =>
          let position := (indices partialSort index request.queries i request.k).getD j 0
          ((distances index request.queries i).getD position 0, position) := slice_table hi
    have hnearRange : ((List.range request.k).map fun j => near.getD j 0) = near :=
      Scatter.map_getD_range hlength 0
    rw [htable, ← hnearRange, List.map_map]
    refine List.map_congr_left fun j hj => ?_
    rw [List.mem_range] at hj
    have hmem : near.getD j 0 ∈ near := by
      rw [List.getD_eq_getElem _ _ (hlength.symm ▸ hj)]
      exact List.getElem_mem _
    dsimp only [Function.comp_apply]
    rw [hposition j hj, getD_distances (hlt _ hmem)]
  have hdistances : slice (answer partialSort index request).1 (i * request.k)
      ((i + 1) * request.k) = near.map (distance index request.queries i) := by
    rw [answer, ← map_slice, hrow, List.map_map]
    rfl
  have hindices : slice (answer partialSort index request).2 (i * request.k)
      ((i + 1) * request.k) = near := by
    rw [answer, ← map_slice, hrow, List.map_map]
    exact List.map_id near
  rw [hdistances, hindices]
  exact hnear

theorem workerCount_mem (hardwareConcurrency queryCount databaseCount : ℕ) :
    1 ≤ workerCount hardwareConcurrency queryCount databaseCount ∧
      workerCount hardwareConcurrency queryCount databaseCount ≤ 4 := by
  rw [workerCount]
  split_ifs <;> omega

/-- **Exact search.** For a valid index and a batch of finite queries, everything that a search
returns is one result, which depends neither on the count of the workers nor on what they do; a
search of a possible size can return it; and its rows have the nearest vectors. -/
theorem search_exact (partialSort : PartialSort) (index : CudaFlatIndex F) (batch : List F)
    (queryCount count workers : ℕ) (hworkers : 0 < workers) (hvalid : index.valid = true)
    (hbatch : batch.length = queryCount * index.dim) (hfinite : batch.all Sample.isFinite = true)
    (hpos : 0 < queryCount) (hcount : 0 < count) (hle : count ≤ index.ntotal) :
    (∀ result, Search partialSort index (some batch) queryCount count index.dim workers hworkers
        result → result = none ∨
          result = some (answer partialSort index ⟨batch, queryCount, count⟩)) ∧
      (batch.length < 2 ^ 64 → queryCount * count ≤ maxIndices →
        Search partialSort index (some batch) queryCount count index.dim workers hworkers
          (some (answer partialSort index ⟨batch, queryCount, count⟩))) ∧
      ∀ i < queryCount, NearestNeighbours index batch i count
        (slice (answer partialSort index ⟨batch, queryCount, count⟩).1 (i * count)
          ((i + 1) * count))
        (slice (answer partialSort index ⟨batch, queryCount, count⟩).2 (i * count)
          ((i + 1) * count)) := by
  refine ⟨fun result hresult => ?_, fun hsize hlimit => ?_, fun i hi => ?_⟩
  · rcases eq_answer_of_search hresult with hnone | ⟨request, hcheck, heq⟩
    · exact Or.inl hnone
    · obtain ⟨hqueries, hqueryCount, hk, -, -⟩ := of_check hcheck
      obtain ⟨queries, n, k⟩ := request
      obtain rfl := Option.some.inj hqueries
      obtain rfl := Int.ofNat.inj hqueryCount
      obtain rfl := Int.ofNat.inj hk
      exact Or.inr heq
  · exact search_answer (check_of_valid hvalid hbatch hfinite hsize hpos hcount hle hlimit)
  · exact @nearestNeighbours_answer F _ _ _ _ _ partialSort index ⟨batch, queryCount, count⟩ i hi
      hle

end Result

end Search

theorem StrictWeakOrder.pairwise_insertionSort {less : ℕ → ℕ → Bool} (h : StrictWeakOrder less)
    (l : List ℕ) : (l.insertionSort fun a b => less b a = false).Pairwise
      fun a b => less b a = false := by
  have htotal : Std.Total fun a b => less b a = false := by
    refine ⟨fun a b => ?_⟩
    rw [← Bool.not_eq_true, ← Bool.not_eq_true, ← not_and_or]
    rintro ⟨hba, hab⟩
    have haa := h.trans a b a hab hba
    rw [h.irrefl] at haa
    cases haa
  have htrans : IsTrans ℕ fun a b => less b a = false := by
    refine ⟨fun a b c hab hbc => ?_⟩
    rw [← Bool.not_eq_true]
    intro hca
    rcases h.cotrans c b a hca with hcb | hba
    · rw [hbc] at hcb
      cases hcb
    · rw [hab] at hba
      cases hba
  exact List.pairwise_insertionSort _ l

/-- A partial sort that sorts everything. -/
def insertionSort : PartialSort where
  sort less _ l := l.insertionSort fun a b => less b a = false
  perm _ l _ _ := List.perm_insertionSort _ l
  sorted _ l horder _ := (horder.pairwise_insertionSort l).sublist (List.take_sublist _ _)
  least count l horder _ := by
    have hsorted := horder.pairwise_insertionSort l
    rw [← List.take_append_drop count (l.insertionSort _), List.pairwise_append] at hsorted
    exact hsorted.2.2

/-- Four vectors of the plane. -/
def planeIndex : CudaFlatIndex ℤ where
  data := [0, 0, 3, 0, 0, 5, 7, 7]
  ntotal := 4
  dim := 2
  length_data := rfl

/-- Two queries with the three nearest vectors of each. -/
theorem search_exact_plane :
    answer insertionSort planeIndex ⟨[1, 0, 2, 2], 2, 3⟩ =
        ([1, 4, 26, 5, 8, 13], [0, 1, 2, 1, 0, 2]) ∧
      Search insertionSort planeIndex (some [1, 0, 2, 2]) 2 3 2 4 (by decide)
        (some ([1, 4, 26, 5, 8, 13], [0, 1, 2, 1, 0, 2])) := by
  have hanswer : answer insertionSort planeIndex ⟨[1, 0, 2, 2], 2, 3⟩ =
      ([1, 4, 26, 5, 8, 13], [0, 1, 2, 1, 0, 2]) := by decide
  refine ⟨hanswer, hanswer ▸ ?_⟩
  exact (search_exact insertionSort planeIndex [1, 0, 2, 2] 2 3 4 (by decide) rfl rfl rfl
    (by decide) (by decide) (by decide)).2.1 (by decide) (by decide)

end Resonantia.Index
