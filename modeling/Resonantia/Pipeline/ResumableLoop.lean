import Resonantia.Io.BlockCheckpoint
import Resonantia.Library.CachedLoop

/-!
# Resumable loops

The two loops of a bounded conversion, over F0 windows and over synthesis cores, treat a block in
the same way. With a checkpoint they stop at a boundary, check that the block is aligned, and take
the samples of a saved block in place of computing them; a computed block is saved, and a boundary
follows in both cases. Without a checkpoint the block is computed.

A loop of such blocks is a cached loop over the saved samples: whatever a session answers, a run is
an attempt of the cached loop, and without a checkpoint it ends where the cached loop ends.

## Main definitions

* `Pipeline.cachedBlock`: the cached and the computed branch of a block.
* `Pipeline.Drives`: a loop that runs the jobs of a cached loop block by block.

## Main results

* `Pipeline.exec_cachedBlock_none`: without a checkpoint the block is computed.
* `Pipeline.cachedBlock_spec`: what a block does to the saved samples.
* `Pipeline.Drives.attempt`: a run is an attempt of the cached loop.
* `Pipeline.Drives.exec_of_completes`: the run without a checkpoint completes the cached loop.
-/

namespace Resonantia.Pipeline

open Effect Io CachedLoop

variable {α β : Type}

/-! ### Loops of blocks -/

variable {σ κ : Type}

/-- A block of the job `k` in state `s` of a cached loop: it takes saved samples or computed ones to
the next state, and it saves at most the computed samples of the job. -/
def BlockTriple (L : Loop σ κ String (List α) String) (s : σ) (k : κ) (block : CheckpointM α σ)
    (c : String → Option (List α)) : Prop :=
  Triple (fun session => cached session = c) block
    (fun t session =>
      (∃ v, c (L.key k) = some v ∧ L.advance s k v = .ok t ∧ cached session = c) ∨
      ∃ v, L.compute k = .ok v ∧ L.advance s k v = .ok t ∧ L.Adds s c (cached session))
    (fun _ session => L.Adds s c (cached session))

/-- `run` runs the jobs of a cached loop, block by block. -/
structure Drives (L : Loop σ κ String (List α) String) (block : σ → κ → CheckpointM α σ)
    (run : σ → CheckpointM α σ) : Prop where
  unfold : ∀ s, run s =
    match L.next s with
    | .error message => throw (.failed message)
    | .ok none => pure s
    | .ok (some k) => block s k >>= run
  decreasing : ∃ μ : σ → ℕ, ∀ s k v t,
    L.next s = .ok (some k) → L.advance s k v = .ok t → μ t < μ s
  compute : ∀ s k v t, L.next s = .ok (some k) → L.compute k = .ok v → L.advance s k v = .ok t →
    exec (block s k) none = (.ok t, none)
  cache : ∀ s k c, L.next s = .ok (some k) → BlockTriple L s k (block s k) c

namespace Drives

variable {L : Loop σ κ String (List α) String} {block : σ → κ → CheckpointM α σ}
  {run : σ → CheckpointM α σ}

/-- **Runs without a checkpoint.** They end where the cached loop ends. -/
theorem exec_of_completes (h : Drives L block run) {s t : σ} (hcompletes : L.Completes s t) :
    exec (run s) none = (.ok t, none) := by
  obtain ⟨hvisits, hfinal⟩ := hcompletes
  induction hvisits using Relation.ReflTransGen.head_induction_on with
  | refl =>
    rw [h.unfold, hfinal]
    exact exec_pure _ _
  | head hstep _ ih =>
    obtain ⟨k, v, hnext, hcompute, hadvance⟩ := hstep
    rw [h.unfold, hnext, exec_bind_of_ok (h.compute _ _ _ _ hnext hcompute hadvance), ih]

/-- **Runs with a checkpoint.** Whatever the session answers, a run is an attempt of the cached
loop over the saved samples. -/
theorem attempt (h : Drives L block run) {s : σ} {session session' : Option (Session α)}
    {r : Except Halt σ} (hexec : exec (run s) session = (r, session')) :
    L.Attempt (cached session) s (cached session') r.toOption := by
  obtain ⟨μ, hμ⟩ := h.decreasing
  induction hd : μ s using Nat.strongRecOn generalizing s session with
  | ind d ih =>
    rw [h.unfold] at hexec
    rcases hnext : L.next s with message | _ | k
    · rw [hnext] at hexec
      cases hexec
      exact .stop (Loop.adds_refl _ _)
    · rw [hnext] at hexec
      cases hexec
      exact .finish hnext
    · rw [hnext] at hexec
      dsimp only at hexec
      rw [exec_bind] at hexec
      rcases hblock : exec (block s k) session with ⟨outcome, session₁⟩
      rw [hblock] at hexec
      rcases triple_elim (h.cache s k _ hnext) rfl hblock with ⟨t, rfl, hpost⟩ | ⟨e, rfl, hadds⟩
      · rcases hpost with ⟨v, hcached, hadvance, hs⟩ | ⟨v, hcompute, hadvance, hadds⟩
        · have hrest := ih (μ t) (hd ▸ hμ s k v t hnext hadvance) hexec rfl
          rw [hs] at hrest
          exact .hit hnext hcached hadvance hrest
        · exact .miss hnext hcompute hadvance hadds
            (ih (μ t) (hd ▸ hμ s k v t hnext hadvance) hexec rfl)
      · cases hexec
        exact .stop hadds

/-- Over consistent samples a run completes the cached loop, and in every outcome it leaves
consistent samples and adds samples under the names of its jobs only. -/
theorem spec (h : Drives L block run) {s : σ} (hd : L.KeysDistinct s)
    {c : String → Option (List α)} (hc : L.Consistent s c) :
    Triple (fun session => cached session = c) (run s)
      (fun t session => L.Completes s t ∧ L.Consistent s (cached session) ∧
        ∀ i v, cached session i = some v → c i = some v ∨ ∃ k, i = L.key k)
      (fun _ session => L.Consistent s (cached session) ∧
        ∀ i v, cached session i = some v → c i = some v ∨ ∃ k, i = L.key k) := by
  rintro session rfl
  rcases hexec : exec (run s) session with ⟨outcome, session'⟩
  have hattempt := h.attempt hexec
  have hconsistent := hattempt.consistent hd hc .refl
  cases outcome with
  | error e => exact ⟨hconsistent, fun _ _ => hattempt.eq_key⟩
  | ok t => exact ⟨hattempt.completes hd hc .refl, hconsistent, fun _ _ => hattempt.eq_key⟩

end Drives

/-! ### Cached blocks -/

/-- A step that the loops make only with a checkpoint. -/
def ifCheckpoint (x : CheckpointM α Unit) : CheckpointM α Unit := fun s =>
  match s with
  | none => (.ok (), none)
  | some s => x (some s)

theorem triple_ifCheckpoint {P : Option (Session α) → Prop} {x : CheckpointM α Unit}
    {Q : Unit → Option (Session α) → Prop} {E : Halt → Option (Session α) → Prop}
    (hx : Triple P x Q E) (hnone : P none → Q () none) : Triple P (ifCheckpoint x) Q E := by
  rintro (_ | s) hs
  · exact hnone hs
  · exact hx (some s) hs

/-- A step that depends on no session leaves it alone. -/
theorem ofExcept_spec (x : Except String β) (P : Option (Session α) → Prop) :
    Triple P (CheckpointM.ofExcept x) (fun b s => x = .ok b ∧ P s) (fun _ s => P s) := by
  cases x with
  | error message => exact triple_throw fun s hs => hs
  | ok b => exact triple_pure fun s hs => ⟨rfl, hs⟩

/-- The saved samples `c'` are those of `c` and at most a computed block. -/
def Saves (key : String) (compute : Except String (Except String (List α) × β))
    (c c' : String → Option (List α)) : Prop :=
  ∀ i v, c' i = some v → c i = some v ∨ i = key ∧ ∃ b, compute = .ok (.ok v, b)

theorem saves_refl (c : String → Option (List α)) : Saves key compute c c :=
  fun _ _ h => Or.inl h

variable [Sample α] [BlockDigest α] [DecidableEq α]

/-- Saving the samples of a computed block, which may first have to be read back. -/
def saveCommitted (key : String) (offset : ℕ) (committed : Except String (List α)) :
    CheckpointM α Unit :=
  ifCheckpoint do
    let data ← CheckpointM.ofExcept committed
    save key offset data

/-- The cached and the computed branch of a block: `take` moves on with saved samples, `compute`
returns the samples to save and what it moved on to. -/
def cachedBlock (key : String) (offset count : ℕ) (check : Except String Unit)
    (take : List α → Except String β) (compute : Except String (Except String (List α) × β)) :
    CheckpointM α β := do
  boundary
  ifCheckpoint (CheckpointM.ofExcept check)
  match ← load key offset count with
  | some cached =>
    let b ← CheckpointM.ofExcept (take cached)
    boundary
    return b
  | none =>
    let (committed, b) ← CheckpointM.ofExcept compute
    saveCommitted key offset committed
    boundary
    return b

variable {key : String} {offset count : ℕ} {check : Except String Unit}
  {take : List α → Except String β} {compute : Except String (Except String (List α) × β)}

/-- Without a checkpoint the block is computed. -/
theorem exec_cachedBlock_none {committed : Except String (List α)} {b : β}
    (h : compute = .ok (committed, b)) :
    exec (cachedBlock key offset count check take compute) none = (.ok b, none) := by
  have hboundary : exec (boundary : CheckpointM α Unit) none = (.ok (), none) := rfl
  have hcheck : exec (ifCheckpoint (CheckpointM.ofExcept check) : CheckpointM α Unit) none =
      (.ok (), none) := rfl
  have hload : exec (load key offset count : CheckpointM α _) none = (.ok none, none) := rfl
  have hsave : exec (saveCommitted key offset committed : CheckpointM α _) none =
      (.ok (), none) := rfl
  have hcompute : exec (CheckpointM.ofExcept compute : CheckpointM α _) none =
      (.ok (committed, b), none) := CheckpointM.exec_ofExcept_ok.mpr ⟨h, rfl⟩
  rw [cachedBlock, exec_bind_of_ok hboundary, exec_bind_of_ok hcheck, exec_bind_of_ok hload]
  dsimp only
  rw [exec_bind_of_ok hcompute, exec_bind_of_ok hsave, exec_bind_of_ok hboundary, exec_pure]

/-- Saving a computed block adds at most its samples under its name. -/
theorem saveCommitted_spec {committed : Except String (List α)} {b : β}
    (h : compute = .ok (committed, b)) (c : String → Option (List α)) :
    Triple (fun s => cached s = c) (saveCommitted key offset committed)
      (fun _ s => Saves key compute c (cached s)) (fun _ s => Saves key compute c (cached s)) := by
  refine triple_ifCheckpoint ?_ (fun hc => hc ▸ saves_refl _)
  refine triple_bind (triple_conseq (ofExcept_spec committed _) (fun _ h => h) (fun _ _ h => h)
    (fun _ _ hc => hc ▸ saves_refl _)) fun data => triple_of_fact fun hdata => ?_
  have hsaves : ∀ s : Option (Session α),
      (∀ i w, cached s i = some w → c i = some w ∨ i = key ∧ w = data) →
        Saves key compute c (cached s) := by
    intro s hs i w hw
    rcases hs i w hw with hold | ⟨hi, rfl⟩
    · exact Or.inl hold
    · exact Or.inr ⟨hi, b, by rw [h, hdata]⟩
  exact triple_conseq (save_spec key offset data c) (fun _ h => h) (fun _ s h => hsaves s h)
    (fun _ s h => hsaves s h)

/-- The block moves on with samples that were saved under its name, or with computed ones; in every
outcome it saves at most the computed samples under its name. A block that took saved samples has
passed the check. -/
theorem cachedBlock_spec (c : String → Option (List α)) :
    Triple (fun s => cached s = c) (cachedBlock key offset count check take compute)
      (fun b s =>
        (∃ v, c key = some v ∧ check = .ok () ∧ take v = .ok b ∧ cached s = c) ∨
        ∃ committed, compute = .ok (committed, b) ∧ Saves key compute c (cached s))
      (fun _ s => Saves key compute c (cached s)) := by
  have hkeep : ∀ (e : Halt) (s : Option (Session α)), cached s = c →
      Saves key compute c (cached s) := by
    rintro e s rfl
    exact saves_refl _
  have hboundary := boundary_spec (α := α) (fun c' => c' = c)
  -- Without a session the check is skipped, but then nothing is saved under any name.
  have hcheck : Triple (fun s => cached s = c) (ifCheckpoint (CheckpointM.ofExcept check))
      (fun _ s => (check = .ok () ∨ ∀ i, c i = none) ∧ cached s = c) (fun _ s => cached s = c) :=
    triple_ifCheckpoint (triple_conseq (ofExcept_spec check _) (fun _ h => h)
      (fun _ _ h => ⟨Or.inl h.1, h.2⟩) (fun _ _ h => h))
      (fun h => ⟨Or.inr fun i => h ▸ cached_none i, h⟩)
  rw [cachedBlock]
  refine triple_bind (triple_conseq hboundary (fun _ h => h) (fun _ _ h => h) hkeep) fun _ => ?_
  refine triple_bind (triple_conseq hcheck (fun _ h => h) (fun _ _ h => h) hkeep) fun _ => ?_
  refine triple_of_fact fun hchecked => ?_
  refine triple_bind (triple_conseq (load_spec key offset count c) (fun _ h => h) (fun _ _ h => h)
    hkeep) ?_
  rintro (_ | v)
  · refine triple_bind (triple_conseq (ofExcept_spec compute _) (fun _ h => h.2) (fun _ _ h => h)
      hkeep) ?_
    rintro ⟨committed, b⟩
    refine triple_of_fact fun hcompute => ?_
    refine triple_bind (saveCommitted_spec hcompute c) fun _ => ?_
    refine triple_bind (boundary_spec (Saves key compute c)) fun _ => ?_
    exact triple_pure fun s hs => Or.inr ⟨committed, hcompute, hs⟩
  · refine triple_of_fact fun hv => ?_
    have hpassed : check = .ok () := by
      rcases hchecked with hok | hempty
      · exact hok
      · have hsome := hv v rfl
        rw [hempty key] at hsome
        cases hsome
    refine triple_bind (triple_conseq (ofExcept_spec (take v) _) (fun _ h => h) (fun _ _ h => h)
      hkeep) fun b => ?_
    refine triple_of_fact fun htake => ?_
    refine triple_bind (triple_conseq hboundary (fun _ h => h) (fun _ _ h => h) hkeep) fun _ => ?_
    exact triple_pure fun t ht => Or.inl ⟨v, hv v rfl, hpassed, htake, ht⟩

/-- A cached block is a block of a job when its branches move on as the job does. -/
theorem blockTriple_cachedBlock {L : Loop σ κ String (List α) String} {s : σ} {k : κ}
    (next : β → σ) (hnext : L.next s = .ok (some k)) (hkey : key = L.key k)
    (htake : check = .ok () → ∀ v b, take v = .ok b → L.advance s k v = .ok (next b))
    (hcompute : ∀ committed b, compute = .ok (committed, b) →
      ∃ v, committed = .ok v ∧ L.compute k = .ok v ∧ L.advance s k v = .ok (next b))
    (c : String → Option (List α)) :
    BlockTriple L s k (do
      let b ← cachedBlock key offset count check take compute
      return next b) c := by
  subst hkey
  have hadds : ∀ c', Saves (L.key k) compute c c' → L.Adds s c c' := by
    intro c' hc i v hv
    rcases hc i v hv with hold | ⟨rfl, b, hb⟩
    · exact Or.inl hold
    · obtain ⟨w, hw, hk, -⟩ := hcompute _ _ hb
      cases hw
      exact Or.inr ⟨k, hnext, hk, rfl⟩
  refine triple_bind (triple_conseq (cachedBlock_spec c) (fun _ h => h) (fun _ _ h => h)
    (fun _ session h => hadds _ h)) fun b => triple_pure ?_
  rintro session (⟨v, hcached, hcheck, hb, hs⟩ | ⟨committed, hb, hs⟩)
  · exact Or.inl ⟨v, hcached, htake hcheck v b hb, hs⟩
  · obtain ⟨v, -, hk, hadvance⟩ := hcompute _ _ hb
    exact Or.inr ⟨v, hk, hadvance, hadds _ hs⟩

end Resonantia.Pipeline
