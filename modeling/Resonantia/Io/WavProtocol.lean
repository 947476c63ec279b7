import Resonantia.Io.WavCanonical

/-!
# The protocol of the atomic WAV writer

A sequence of calls with their replies describes a writing: its target, the 16-bit values that were
taken so far, and whether a call failed. The writer changes no path but its own staging files,
until a commit puts a canonical file of exactly these values in the place of the target.

## Main definitions

* `Io.WavWriter.IsStaging`: the paths of staging files.
* `Io.WavWriter.Session`, `Io.WavWriter.sessionFrom`: the writing that a sequence of calls
  describes.
* `Io.WavWriter.Agrees`: the writer and its staging file hold that writing.
* `Io.WavWriter.Obeys`: what one call may do.

## Main results

* `Io.WavWriter.openWriter_spec`, `Io.WavWriter.appendImpl_spec`, `Io.WavWriter.commit_spec`: the
  calls.
* `Io.WavWriter.agrees_of_run`: the writer agrees with its calls after every sequence of them.
* `Io.WavWriter.obeys_of_run`: the protocol.
-/

namespace Resonantia.Io.WavWriter

open ByteString Effect FileSystem Wav
open Pipeline (checkedAdd checkedMul eq_add_of_checkedAdd eq_mul_of_checkedMul)

/-! ### Paths and writings -/

/-- A path that this process uses for a staging file. -/
def IsStaging (process : ℕ) (path : FileName) : Prop :=
  ∃ directory sequence, path = pathIn directory (temporaryName process sequence)

/-- A writing as its calls and replies describe it. -/
structure Session where
  target : Target
  sampleRate : ℤ
  expectedSamples : ℕ
  samples : List ℤ
  failed : Bool
deriving DecidableEq

/-- All declared samples were taken, and nothing failed. -/
structure Session.Complete (session : Session) : Prop where
  healthy : session.failed = false
  length : session.samples.length = session.expectedSamples

def Session.append (session : Session) (exactPcm16 : Bool) (samples : List UInt32) (reply : Bool) :
    Session :=
  if reply = true then
    { session with samples := session.samples ++ samples.map (quantize exactPcm16) }
  else { session with failed := true }

/-- The writing after a call with this reply. -/
def sessionAfter (session : Option Session) : Call → Option Bool → Option Session
  | .openWriter target sampleRate expectedSamples, some true =>
    some ⟨target, sampleRate, expectedSamples, [], false⟩
  | .append samples, some reply => session.map (·.append false samples reply)
  | .appendDecodedPcm16 samples, some reply => session.map (·.append true samples reply)
  | _, _ => none

/-- The writing after a sequence of calls, the latest call first. -/
def sessionFrom (session : Option Session) : List (Call × Option Bool) → Option Session
  | [] => session
  | (call, reply) :: earlier => sessionAfter (sessionFrom session earlier) call reply

/-- The file of a writing before its sizes are known. -/
def provisional (session : Session) (layout : WavOutputLayout) : Bytes :=
  makeWavHeader session.sampleRate layout false ++ session.samples.flatMap encodePcm

/-- The writer and its staging file hold a writing. -/
structure Holds (process : ℕ) (session : Session) (files : Files) (state : State) : Prop where
  staging : IsStaging process state.stagingPath
  target : state.targetPath = session.target.path
  layout : wavOutputLayout session.sampleRate session.expectedSamples = some state.layout
  sampleRate : state.sampleRate = session.sampleRate
  expectedSamples : state.expectedSamples = session.expectedSamples
  samplesWritten : state.samplesWritten = session.samples.length
  samples_le : session.samples.length ≤ session.expectedSamples
  isPcm : ∀ pcm ∈ session.samples, IsPcm pcm
  failed : state.failed = session.failed
  content : session.failed = false →
    find files state.stagingPath = some (provisional session state.layout)

/-- The writer holds what its calls describe. -/
def Agrees (process : ℕ) (session : Option Session) (files : Files) (state : Option State) : Prop :=
  match session, state with
  | none, none => True
  | some session, some state => Holds process session files state
  | _, _ => False

/-! ### Operations on the staging file -/

section Operations

variable {process : ℕ} {files : Files} {state : Option State} {path : FileName}

/-- Only staging files differ. -/
def Kept (process : ℕ) (files : Files) (w : World Writer) : Prop :=
  ∀ other, ¬IsStaging process other → find w.files other = find files other

/-- The state of the writer and the content of one file, beside what was kept. -/
structure Status (process : ℕ) (files : Files) (state : Option State) (path : FileName)
    (content : Option Bytes) (w : World Writer) : Prop where
  kept : Kept process files w
  state : w.memory.state = state
  content : find w.files path = content

/-- The same without the file. -/
structure Idle (process : ℕ) (files : Files) (state : Option State) (w : World Writer) :
    Prop where
  kept : Kept process files w
  state : w.memory.state = state

theorem Status.idle {content : Option Bytes} {w : World Writer}
    (h : Status process files state path content w) : Idle process files state w :=
  ⟨h.kept, h.state⟩

theorem Kept.put {w : World Writer} (h : Kept process files w) (hpath : IsStaging process path)
    (content : Bytes) :
    ∀ other, ¬IsStaging process other → find (put w.files path content) other = find files other := by
  intro other hother
  rw [find_put, if_neg fun heq : other = path => hother (heq ▸ hpath), h other hother]

theorem Kept.erase {w : World Writer} (h : Kept process files w) (hpath : IsStaging process path) :
    ∀ other, ¬IsStaging process other → find (erase w.files path) other = find files other := by
  intro other hother
  rw [find_erase, if_neg fun heq : other = path => hother (heq ▸ hpath), h other hother]

/-- A call that changes no file. -/
theorem succeeds_check_spec {content : Option Bytes} (message : String) :
    Triple (Status process files state path content) (succeeds (check message))
      (fun _ => Status process files state path content) (fun _ => Kept process files) :=
  triple_succeeds (fun _ hw => ⟨hw.kept, hw.state, hw.content⟩)
    fun _ hw _ => ⟨⟨hw.kept, hw.state, hw.content⟩, hw.kept⟩

theorem captureIdentity_spec {content : Option Bytes} :
    Triple (Status process files state path content) (captureIdentity path)
      (fun identity w => (∀ size, identity = some size → content.map List.length = some size) ∧
        Status process files state path content w) (fun _ => Kept process files) := by
  refine triple_bind (succeeds_check_spec "fstat") fun reply => ?_
  cases reply with
  | false => exact triple_pure fun w hw => ⟨fun _ h => (nomatch h), hw⟩
  | true =>
    refine triple_get_bind fun w hw => triple_pure ?_
    rintro _ rfl
    exact ⟨fun size h => by rw [← h, hw.content], hw⟩

theorem removeStaging_spec (hpath : IsStaging process path) :
    Triple (Idle process files state) (removeStaging path) (fun _ => Idle process files state)
      (fun _ => Kept process files) := by
  refine triple_bind (Q := fun _ => Idle process files state)
    (triple_succeeds (fun _ hw => ⟨hw.kept, hw.state⟩)
      fun _ hw _ => ⟨⟨hw.kept, hw.state⟩, hw.kept⟩) fun reply => ?_
  cases reply with
  | false => exact triple_pure fun w hw => hw
  | true =>
    refine triple_get_bind fun w hw => ?_
    split_ifs
    · refine triple_bind (Q := fun _ => Idle process files state) (triple_succeeds ?_ ?_)
        fun _ => triple_pure fun w hw => hw
      · rintro _ rfl
        exact ⟨hw.kept.erase hpath, hw.state⟩
      · rintro _ rfl _
        exact ⟨⟨hw.kept, hw.state⟩, hw.kept⟩
    · refine triple_pure ?_
      rintro _ rfl
      exact hw

theorem abort_spec (hstate : ∀ s, state = some s → IsStaging process s.stagingPath) :
    Triple (Idle process files state) abort (fun _ => Idle process files none)
      (fun _ => Kept process files) := by
  refine triple_get_bind fun w hw => ?_
  rw [hw.state]
  cases state with
  | none =>
    refine triple_pure ?_
    rintro _ rfl
    exact hw
  | some s =>
    refine triple_bind (Q := fun _ => Idle process files none) ?_ fun _ =>
      removeStaging_spec (hstate s rfl)
    rintro _ rfl
    exact ⟨hw.kept, rfl⟩

theorem abandon_spec (hstate : ∀ s, state = some s → IsStaging process s.stagingPath) :
    Triple (Idle process files state) abandon
      (fun reply w => reply = false ∧ Idle process files none w) (fun _ => Kept process files) :=
  triple_bind (abort_spec hstate) fun _ => triple_pure fun _ hw => ⟨rfl, hw⟩

theorem writeAt_length (content data : Bytes) :
    writeAt content data content.length = content ++ data := by
  rw [writeAt, List.take_length, Nat.sub_self, List.replicate_zero, List.append_nil,
    List.drop_eq_nil_of_le (Nat.le_add_right _ _), List.append_nil]

theorem writeAt_nil {content : Bytes} {offset : ℕ} (h : offset ≤ content.length) :
    writeAt content [] offset = content := by
  rw [writeAt, Nat.sub_eq_zero_of_le h, List.replicate_zero, List.append_nil, List.append_nil,
    List.length_nil, Nat.add_zero, List.take_append_drop]

/-- A write of the same length at the start. -/
theorem writeAt_zero {before after rest : Bytes} (h : before.length = after.length) :
    writeAt (before ++ rest) after 0 = after ++ rest := by
  rw [writeAt, List.take_zero, Nat.zero_sub, List.replicate_zero, List.nil_append, List.nil_append,
    Nat.zero_add, List.drop_left' h]

theorem pwriteExact_spec (hpath : IsStaging process path) {content data : Bytes} {offset : ℕ}
    (hoffset : offset ≤ content.length) :
    Triple (Status process files state path (some content)) (pwriteExact path data offset)
      (fun reply w => Idle process files state w ∧
        (reply = true → find w.files path = some (writeAt content data offset)))
      (fun _ => Kept process files) := by
  rw [pwriteExact]
  split_ifs with hdata
  · refine triple_pure fun w hw => ⟨hw.idle, fun _ => ?_⟩
    rw [hdata, writeAt_nil hoffset, hw.content]
  · exact triple_pure fun w hw => ⟨hw.idle, fun h => (nomatch h)⟩
  · dsimp only
    refine triple_succeeds (fun w hw => ⟨⟨hw.kept.put hpath _, hw.state⟩, fun _ => ?_⟩)
      fun w hw n => ⟨⟨⟨hw.kept.put hpath _, hw.state⟩, fun h => (nomatch h)⟩, hw.kept.put hpath _⟩
    rw [find_put, if_pos rfl]
    change some (writeAt ((find w.files path).getD []) data offset) = _
    rw [hw.content, Option.getD_some]

/-- The staging file grows by the data. -/
theorem flushAll_spec (hpath : IsStaging process path) {content data : Bytes} :
    Triple (Status process files state path (some content)) (flushAll path data content.length)
      (fun reply w => Idle process files state w ∧
        (reply = true → find w.files path = some (content ++ data)))
      (fun _ => Kept process files) := by
  induction hlength : data.length using Nat.strong_induction_on generalizing data content with
  | _ length ih =>
    rw [flushAll]
    split_ifs with hdata
    · refine triple_pure fun w hw => ⟨hw.idle, fun _ => ?_⟩
      rw [hdata, List.append_nil, hw.content]
    · refine triple_bind (pwriteExact_spec hpath le_rfl) fun reply => ?_
      cases reply with
      | false => exact triple_pure fun w hw => ⟨hw.1, fun h => (nomatch h)⟩
      | true =>
        have hpos := List.length_pos_of_ne_nil hdata
        have hless : (data.drop kPcmWriteBufferBytes).length < length := by
          rw [List.length_drop, kPcmWriteBufferBytes]
          omega
        have hrest := @ih _ hless (content ++ data.take kPcmWriteBufferBytes) _ rfl
        rw [List.length_append, List.append_assoc, List.take_append_drop] at hrest
        refine triple_pre hrest fun w hw => ⟨hw.1.kept, hw.1.state, ?_⟩
        rw [hw.2 rfl, writeAt_length]

theorem createStaging_spec (directory : Bytes) (attempts : ℕ) :
    Triple (Idle process files state) (createStaging process directory attempts)
      (fun name w => Idle process files state w ∧ ∀ n, name = some n →
        IsStaging process (pathIn directory n) ∧ find w.files (pathIn directory n) = some [])
      (fun _ => Kept process files) := by
  induction attempts with
  | zero => exact triple_pure fun w hw => ⟨hw, fun _ h => (nomatch h)⟩
  | succ attempts ih =>
    refine triple_get_bind fun w hw => ?_
    refine triple_bind (Q := fun _ => Idle process files state) ?_ fun _ => ?_
    · rintro _ rfl
      exact ⟨hw.kept, hw.state⟩
    refine triple_bind (Q := fun _ => Idle process files state)
      (triple_succeeds (fun _ hw => ⟨hw.kept, hw.state⟩)
        fun _ hw _ => ⟨⟨hw.kept, hw.state⟩, hw.kept⟩) fun reply => ?_
    cases reply with
    | false => exact triple_pure fun w hw => ⟨hw, fun _ h => (nomatch h)⟩
    | true =>
      rw [if_pos rfl]
      split_ifs
      · exact ih
      · have hstaging : IsStaging process
            (pathIn directory (temporaryName process w.memory.sequence)) := ⟨_, _, rfl⟩
        refine triple_bind (Q := fun _ w' => Idle process files state w' ∧
          find w'.files (pathIn directory (temporaryName process w.memory.sequence)) = some [])
          (fun w' hw' => ⟨⟨hw'.kept.put hstaging [], hw'.state⟩, ?_⟩) fun _ => ?_
        · dsimp only
          rw [find_put, if_pos rfl]
        · refine triple_pure fun w' hw' => ⟨hw'.1, fun n hn => ?_⟩
          obtain rfl := Option.some.inj hn
          exact ⟨hstaging, hw'.2⟩

end Operations

/-! ### Calls -/

section Calls

variable {process : ℕ} {files : Files}

-- the rules below follow the sequence of operations and do not evaluate them
attribute [local irreducible] pwriteExact createStaging

/-- What a call other than a commit leaves. -/
structure Left (process : ℕ) (files : Files) (session : Option Session) (w : World Writer) :
    Prop where
  kept : Kept process files w
  agrees : Agrees process session w.files w.memory.state

theorem Idle.left {w : World Writer} (h : Idle process files none w) : Left process files none w :=
  ⟨h.kept, by rw [h.state]; trivial⟩

theorem staging_of_agrees {session : Option Session} {state : Option State}
    (h : Agrees process session files state) :
    ∀ s, state = some s → IsStaging process s.stagingPath := by
  rintro s rfl
  cases session with
  | none => exact h.elim
  | some session => exact h.staging

/-- Opening from the creation of the staging file on. -/
theorem openStaged_spec {target : Target} {sampleRate : ℤ} {expectedSamples : ℕ}
    {layout : WavOutputLayout} {stagingName : Bytes}
    (hpath : IsStaging process (pathIn (normalizedDirectory target.parent) stagingName))
    (hlayout : wavOutputLayout sampleRate expectedSamples = some layout)
    (session : Option Session) :
    Triple (Status process files none (pathIn (normalizedDirectory target.parent) stagingName)
        (some []))
      (do
        let path := pathIn (normalizedDirectory target.parent) stagingName
        if ← pwriteExact path (makeWavHeader sampleRate layout false) 0 then
          match ← captureIdentity path with
          | none => pure false
          | some size =>
            if size ≠ kWavHeaderBytes then do
              removeStaging path
              pure false
            else do
              setState (some
                { directory := normalizedDirectory target.parent, stagingName
                  targetName := target.name, identity := size, layout, sampleRate, expectedSamples
                  samplesWritten := 0, failed := false })
              pure true
        else pure false)
      (fun reply => Left process files (sessionAfter session
        (.openWriter target sampleRate expectedSamples) (some reply)))
      (fun _ => Kept process files) := by
  refine triple_bind (pwriteExact_spec hpath (Nat.zero_le _)) fun reply => ?_
  cases reply with
  | false => exact triple_pure fun w hw => hw.1.left
  | true =>
    rw [if_pos rfl]
    have hcontent : writeAt [] (makeWavHeader sampleRate layout false) 0 =
        makeWavHeader sampleRate layout false := writeAt_length [] _
    rw [hcontent]
    refine triple_bind (triple_pre captureIdentity_spec fun w hw =>
      ⟨hw.1.kept, hw.1.state, hw.2 rfl⟩) fun identity => ?_
    cases identity with
    | none => exact triple_pure fun w hw => hw.2.idle.left
    | some size =>
      dsimp only
      split_ifs
      · exact triple_bind (triple_pre (removeStaging_spec hpath) fun w hw => hw.2.idle)
          fun _ => triple_pure fun w hw => hw.left
      · refine triple_bind (Q := fun _ => Left process files (sessionAfter session
          (.openWriter target sampleRate expectedSamples) (some true))) (fun w hw => ?_)
            fun _ => triple_pure fun w hw => hw
        refine ⟨hw.2.kept, hpath, rfl, hlayout, rfl, rfl, rfl, Nat.zero_le _, fun _ h => (nomatch h), rfl,
          fun _ => ?_⟩
        rw [provisional, List.flatMap_nil, List.append_nil]
        exact hw.2.content

/-- **Opening.** -/
theorem openWriter_spec {state : Option State}
    (hstate : ∀ s, state = some s → IsStaging process s.stagingPath) (session : Option Session)
    (target : Target) (sampleRate : ℤ) (expectedSamples : ℕ) :
    Triple (Idle process files state) (openWriter process target sampleRate expectedSamples)
      (fun reply => Left process files
        (sessionAfter session (.openWriter target sampleRate expectedSamples) (some reply)))
      (fun _ => Kept process files) := by
  refine triple_bind (abort_spec hstate) fun _ => ?_
  split_ifs
  · exact triple_pure fun w hw => hw.left
  cases hlayout : wavOutputLayout sampleRate expectedSamples with
  | none => exact triple_pure fun w hw => hw.left
  | some layout =>
    dsimp only
    refine triple_bind (Q := fun _ => Idle process files none)
      (triple_succeeds (fun _ hw => ⟨hw.kept, hw.state⟩)
        fun _ hw _ => ⟨⟨hw.kept, hw.state⟩, hw.kept⟩) fun reply => ?_
    cases reply with
    | false => exact triple_pure fun w hw => hw.left
    | true =>
      rw [if_pos rfl]
      refine triple_bind (createStaging_spec _ _) fun name => ?_
      cases name with
      | none => exact triple_pure fun w hw => hw.1.left
      | some stagingName =>
        refine triple_pre (triple_of_fact (p := IsStaging process
          (pathIn (normalizedDirectory target.parent) stagingName)) fun hpath =>
            openStaged_spec hpath hlayout session) fun w hw => ?_
        obtain ⟨hpath, hempty⟩ := hw.2 stagingName rfl
        exact ⟨hpath, hw.1.kept, hw.1.state, hempty⟩

theorem append_true (x : Session) (exactPcm16 : Bool) (samples : List UInt32) :
    x.append exactPcm16 samples true =
      { x with samples := x.samples ++ samples.map (quantize exactPcm16) } := rfl

/-- A failure is remembered. -/
theorem failWith_spec {x : Session} {st : State} (h : Holds process x files st)
    (exactPcm16 : Bool) (samples : List UInt32) :
    Triple (Idle process files (some st)) (failWith st)
      (fun reply w => reply = false ∧
        Left process files (some (x.append exactPcm16 samples reply)) w)
      (fun _ => Kept process files) := by
  refine triple_bind (Q := fun _ w => Idle process files (some { st with failed := true }) w)
    (fun w hw => ⟨hw.kept, rfl⟩) fun _ => triple_pure fun w hw => ⟨rfl, hw.kept, ?_⟩
  rw [hw.state]
  exact ⟨h.staging, h.target, h.layout, h.sampleRate, h.expectedSamples, h.samplesWritten,
    h.samples_le, h.isPcm, rfl, fun h => (nomatch h)⟩

/-- The values that an append takes. -/
theorem isPcm_append {x : Session} {exactPcm16 : Bool} {samples : List UInt32}
    (hx : ∀ pcm ∈ x.samples, IsPcm pcm) (h : samples.any (rejects exactPcm16) ≠ true) :
    ∀ pcm ∈ x.samples ++ samples.map (quantize exactPcm16), IsPcm pcm := by
  intro pcm hmem
  rcases List.mem_append.1 hmem with hmem | hmem
  · exact hx pcm hmem
  · obtain ⟨sample, hsample, rfl⟩ := List.mem_map.1 hmem
    refine isPcm_quantize (Bool.eq_false_iff.2 fun hreject => h ?_)
    exact List.any_eq_true.2 ⟨sample, hsample, hreject⟩

theorem length_provisional (x : Session) (layout : WavOutputLayout) :
    (provisional x layout).length = 44 + 2 * x.samples.length := by
  rw [provisional, List.length_append, length_makeWavHeader, length_flatMap_encodePcm,
    kWavHeaderBytes]

/-- The size that `append_impl` and `commit` compute. -/
theorem eq_of_checkedSize {count size : ℕ}
    (h : (checkedMul count 2).bind (checkedAdd kWavHeaderBytes) = some size) :
    size = 44 + 2 * count := by
  obtain ⟨bytes, hbytes, hsize⟩ := Option.bind_eq_some_iff.1 h
  rw [eq_add_of_checkedAdd hsize, eq_mul_of_checkedMul hbytes, kWavHeaderBytes, Nat.mul_comm]

/-- **Appending.** -/
theorem appendImpl_spec {session : Option Session} {state : Option State}
    (hagrees : Agrees process session files state) (samples : List UInt32) (exactPcm16 : Bool) :
    Triple (fun w => w.files = files ∧ w.memory.state = state) (appendImpl samples exactPcm16)
      (fun reply w => (reply = true → ∃ x, session = some x ∧ x.failed = false ∧
          x.samples.length + samples.length ≤ x.expectedSamples) ∧
        Left process files (session.map (·.append exactPcm16 samples reply)) w)
      (fun _ => Kept process files) := by
  refine triple_get_bind fun w₀ hw₀ => ?_
  obtain ⟨rfl, hstate⟩ := hw₀
  rw [hstate]
  have hidle : Idle process w₀.files state w₀ := ⟨fun _ _ => rfl, hstate⟩
  cases state with
  | none =>
    cases session with
    | some x => exact hagrees.elim
    | none =>
      refine triple_pure ?_
      rintro _ rfl
      exact ⟨fun h => (nomatch h), hidle.left⟩
  | some st =>
  cases session with
  | none => exact hagrees.elim
  | some x =>
  have hold : Holds process x w₀.files st := hagrees
  have hfail : Triple (Idle process w₀.files (some st)) (failWith st)
      (fun reply w => (reply = true → ∃ y, some x = some y ∧ y.failed = false ∧
          y.samples.length + samples.length ≤ y.expectedSamples) ∧
        Left process w₀.files (some (x.append exactPcm16 samples reply)) w)
      (fun _ => Kept process w₀.files) :=
    triple_conseq (failWith_spec hold exactPcm16 samples) (fun _ h => h)
      (fun reply w h => ⟨fun htrue => absurd (htrue.symm.trans h.1) (by decide), h.2⟩)
      fun _ _ h => h
  dsimp only
  by_cases hfailed : st.failed = true
  · rw [if_pos hfailed]
    refine triple_pure ?_
    rintro _ rfl
    refine ⟨fun h => (nomatch h), hidle.kept, ?_⟩
    rw [hstate]
    exact ⟨hold.staging, hold.target, hold.layout, hold.sampleRate, hold.expectedSamples,
      hold.samplesWritten, hold.samples_le, hold.isPcm, hfailed, fun h => (nomatch h)⟩
  have hhealthy : x.failed = false := by
    rw [← hold.failed]
    exact Bool.eq_false_iff.2 hfailed
  rw [if_neg hfailed]
  by_cases hempty : samples = []
  · rw [if_pos hempty]
    refine triple_pure ?_
    rintro _ rfl
    refine ⟨fun _ => ⟨x, rfl, hhealthy, ?_⟩, hidle.kept, ?_⟩
    · rw [hempty]
      exact hold.samples_le
    · rw [hstate, hempty, Option.map_some, append_true, List.map_nil, List.append_nil]
      exact hold
  rw [if_neg hempty]
  have hstart : ∀ w, w = w₀ → Idle process w₀.files (some st) w := by
    rintro _ rfl
    exact hidle
  by_cases hreject : samples.any (rejects exactPcm16) = true
  · rw [if_pos hreject]
    exact triple_pre hfail hstart
  rw [if_neg hreject]
  cases hcount : checkedAdd st.samplesWritten samples.length with
  | none => exact triple_pre hfail hstart
  | some newCount =>
  dsimp only
  by_cases hbeyond : st.expectedSamples < newCount
  · rw [if_pos hbeyond]
    exact triple_pre hfail hstart
  rw [if_neg hbeyond]
  cases hsize : (checkedMul st.samplesWritten 2).bind (checkedAdd kWavHeaderBytes) with
  | none => exact triple_pre hfail hstart
  | some expectedSize =>
  have hlength := length_provisional x st.layout
  have hexpected : expectedSize = (provisional x st.layout).length := by
    rw [eq_of_checkedSize hsize, hlength, hold.samplesWritten]
  have hnew : newCount = x.samples.length + samples.length := by
    rw [eq_add_of_checkedAdd hcount, hold.samplesWritten]
  have hfit : x.samples.length + samples.length ≤ x.expectedSamples := by
    rw [← hnew, ← hold.expectedSamples]
    exact Nat.not_lt.1 hbeyond
  have hstatus : ∀ w, w = w₀ → Status process w₀.files (some st) st.stagingPath
      (some (provisional x st.layout)) w := by
    rintro _ rfl
    exact ⟨hidle.kept, hidle.state, hold.content hhealthy⟩
  dsimp only
  refine triple_bind (triple_pre captureIdentity_spec hstatus) fun before => ?_
  by_cases hbefore : before ≠ some st.identity ∨ before ≠ some expectedSize
  · rw [if_pos hbefore]
    exact triple_pre hfail fun w hw => hw.2.idle
  rw [if_neg hbefore, hexpected]
  refine triple_bind (triple_pre (flushAll_spec hold.staging) fun w hw => hw.2) fun reply => ?_
  cases reply with
  | false => exact triple_pre hfail fun w hw => hw.1
  | true =>
  rw [if_pos rfl]
  cases hfinal : (checkedMul newCount 2).bind (checkedAdd kWavHeaderBytes) with
  | none => exact triple_pre hfail fun w hw => hw.1
  | some finalSize =>
  dsimp only
  refine triple_bind (triple_pre captureIdentity_spec fun w hw =>
    ⟨hw.1.kept, hw.1.state, hw.2 rfl⟩) fun after => ?_
  split_ifs
  · exact triple_pre hfail fun w hw => hw.2.idle
  refine triple_bind (Q := fun _ => Left process w₀.files
    (some (x.append exactPcm16 samples true))) (fun w hw => ?_) fun _ =>
      triple_pure fun w hw => ⟨fun _ => ⟨x, rfl, hhealthy, hfit⟩, hw⟩
  refine ⟨hw.2.kept, hold.staging, hold.target, hold.layout, hold.sampleRate,
    hold.expectedSamples, ?_, ?_, isPcm_append hold.isPcm hreject, hold.failed, fun _ => ?_⟩
  · rw [append_true, List.length_append, List.length_map]
    exact hnew
  · rw [append_true, List.length_append, List.length_map]
    exact hfit
  · rw [append_true, provisional, List.flatMap_append, List.flatMap_map, ← List.append_assoc]
    exact hw.2.content

/-- The target has the file of a complete writing; beside it only staging files differ. -/
structure Committed (process : ℕ) (files : Files) (x : Session) (w : World Writer) : Prop where
  complete : x.Complete
  kept : ∀ other, ¬IsStaging process other → other ≠ x.target.path →
    find w.files other = find files other
  content : ∃ layout, wavOutputLayout x.sampleRate x.expectedSamples = some layout ∧
    find w.files x.target.path = some (canonical x.sampleRate layout x.samples)

/-- The rename. -/
theorem rename_spec {x : Session} {st : State} (hold : Holds process x files st)
    (hcomplete : x.Complete) :
    Triple (Status process files (some st) st.stagingPath
        (some (canonical x.sampleRate st.layout x.samples)))
      (succeeds (syscall "renameat" (fun w => { w with
        files := rename w.files st.stagingPath st.targetPath
        renamed := st.targetPath :: w.renamed }) fun _ => id))
      (fun reply w => if reply = true then Committed process files x w
        else Idle process files (some st) w) (fun _ => Kept process files) := by
  refine triple_succeeds (fun w hw => ?_) fun w hw _ => ⟨⟨hw.kept, hw.state⟩, hw.kept⟩
  have hfind : ∀ other, find (rename w.files st.stagingPath st.targetPath) other = _ :=
    fun other => find_rename hw.content
  rw [if_pos rfl]
  refine ⟨hcomplete, fun other hstaging htarget => ?_, st.layout, hold.layout, ?_⟩
  · rw [← hold.target] at htarget
    refine (hfind other).trans ?_
    rw [if_neg htarget, if_neg fun h : other = st.stagingPath => hstaging (h ▸ hold.staging),
      hw.kept other hstaging]
  · rw [← hold.target]
    refine (hfind st.targetPath).trans ?_
    rw [if_pos rfl]

/-- **The commit.** -/
theorem commit_spec {session : Option Session} {state : Option State}
    (hagrees : Agrees process session files state) :
    Triple (fun w => w.files = files ∧ w.memory.state = state) commit
      (fun reply w => if reply = true then
          w.memory.state = none ∧ ∃ x, session = some x ∧ Committed process files x w
        else Left process files none w)
      (fun _ w => Kept process files w ∨ ∃ x, session = some x ∧ Committed process files x w) := by
  refine triple_get_bind fun w₀ hw₀ => ?_
  obtain ⟨rfl, hstate⟩ := hw₀
  rw [hstate]
  have hidle : Idle process w₀.files state w₀ := ⟨fun _ _ => rfl, hstate⟩
  have habandon : Triple (Idle process w₀.files state) abandon
      (fun reply w => if reply = true then
          w.memory.state = none ∧ ∃ x, session = some x ∧ Committed process w₀.files x w
        else Left process w₀.files none w)
      (fun _ w => Kept process w₀.files w ∨
        ∃ x, session = some x ∧ Committed process w₀.files x w) := by
    refine triple_conseq (abandon_spec (staging_of_agrees hagrees)) (fun _ h => h) ?_
      fun _ _ h => Or.inl h
    rintro _ w ⟨rfl, hw⟩
    exact hw.left
  have hstart : ∀ w, w = w₀ → Idle process w₀.files state w := by
    rintro _ rfl
    exact hidle
  cases state with
  | none => exact triple_pre habandon hstart
  | some st =>
  cases session with
  | none => exact hagrees.elim
  | some x =>
  have hold : Holds process x w₀.files st := hagrees
  dsimp only
  by_cases hincomplete : st.failed = true ∨ st.samplesWritten ≠ st.expectedSamples
  · rw [if_pos hincomplete]
    exact triple_pre habandon hstart
  rw [if_neg hincomplete]
  obtain ⟨hfailed, hwritten⟩ := not_or.1 hincomplete
  have hcomplete : x.Complete := by
    rw [not_not, hold.samplesWritten, hold.expectedSamples] at hwritten
    exact ⟨hold.failed ▸ Bool.eq_false_iff.2 hfailed, hwritten⟩
  cases checkedAdd kWavHeaderBytes st.layout.dataBytes with
  | none => exact triple_pre habandon hstart
  | some expectedSize =>
  have hlift : ∀ {β : Type} {P : World Writer → Prop} {op : WriterM β}
      {Q : β → World Writer → Prop}, Triple P op Q (fun _ => Kept process w₀.files) →
      Triple P op Q (fun _ w => Kept process w₀.files w ∨
        ∃ y, some x = some y ∧ Committed process w₀.files y w) :=
    fun h => triple_raise h fun _ _ => Or.inl
  have hstatus : ∀ w, w = w₀ → Status process w₀.files (some st) st.stagingPath
      (some (makeWavHeader x.sampleRate st.layout false ++ x.samples.flatMap encodePcm)) w := by
    rintro _ rfl
    exact ⟨hidle.kept, hidle.state, hold.content hcomplete.healthy⟩
  dsimp only
  refine triple_bind (hlift (triple_pre captureIdentity_spec hstatus)) fun before => ?_
  by_cases hbefore : before ≠ some st.identity ∨ before ≠ some expectedSize
  · rw [if_pos hbefore]
    exact triple_pre habandon fun w hw => hw.2.idle
  rw [if_neg hbefore]
  refine triple_bind (hlift (triple_pre (pwriteExact_spec hold.staging (Nat.zero_le _))
    fun w hw => hw.2)) fun reply => ?_
  cases reply with
  | false => exact triple_pre habandon fun w hw => hw.1
  | true =>
  have hheader : writeAt (makeWavHeader x.sampleRate st.layout false ++
      x.samples.flatMap encodePcm) (makeWavHeader st.sampleRate st.layout true) 0 =
        canonical x.sampleRate st.layout x.samples := by
    rw [hold.sampleRate, canonical, writeAt_zero]
    rw [length_makeWavHeader, length_makeWavHeader]
  rw [if_pos rfl, hheader]
  refine triple_bind (hlift (triple_pre captureIdentity_spec fun w hw =>
    ⟨hw.1.kept, hw.1.state, hw.2 rfl⟩)) fun afterHeader => ?_
  by_cases hafter : afterHeader ≠ some expectedSize
  · rw [if_pos hafter]
    exact triple_pre habandon fun w hw => hw.2.idle
  rw [if_neg hafter]
  refine triple_bind (hlift (triple_pre (succeeds_check_spec "fsync") fun w hw => hw.2))
    fun reply => ?_
  cases reply with
  | false => exact triple_pre habandon fun w hw => hw.idle
  | true =>
  refine triple_bind (hlift (succeeds_check_spec "close")) fun reply => ?_
  cases reply with
  | false => exact triple_pre habandon fun w hw => hw.idle
  | true =>
  refine triple_bind (hlift (succeeds_check_spec "fstatat")) fun reply => ?_
  cases reply with
  | false => exact triple_pre habandon fun w hw => hw.idle
  | true =>
  refine triple_bind (hlift (rename_spec hold hcomplete)) fun reply => ?_
  cases reply with
  | false => exact triple_pre habandon fun w hw => hw
  | true =>
  -- from here on the commit cannot fail
  refine triple_bind (Q := fun _ => Committed process w₀.files x) (triple_succeeds
    (fun w hw => ⟨hw.complete, hw.kept, hw.content⟩) fun w hw _ =>
      ⟨⟨hw.complete, hw.kept, hw.content⟩, Or.inr ⟨x, rfl, hw.complete, hw.kept, hw.content⟩⟩)
      fun _ => ?_
  refine triple_bind (Q := fun _ w => w.memory.state = none ∧ Committed process w₀.files x w)
    (fun w hw => ⟨rfl, hw.complete, hw.kept, hw.content⟩) fun _ =>
      triple_pure fun w hw => ⟨hw.1, x, rfl, hw.2⟩

end Calls

/-! ### Sequences of calls -/

/-- **What one call may do**, by its reply and the writing before it. No reply means that the process
died in the call. -/
structure Obeys (process : ℕ) (session : Option Session) (call : Call) (reply : Option Bool)
    (before after : Files) : Prop where
  changed : ∀ path, ¬IsStaging process path → find after path ≠ find before path →
    call = .commit ∧ reply ≠ some false ∧
      ∃ x, session = some x ∧ x.Complete ∧ path = x.target.path
  committed : call = .commit → reply = some true → ∃ x layout, session = some x ∧ x.Complete ∧
    wavOutputLayout x.sampleRate x.expectedSamples = some layout ∧
      find after x.target.path = some (canonical x.sampleRate layout x.samples) ∧
        ReadsBack (canonical x.sampleRate layout x.samples) x.sampleRate x.samples
  appended : ∀ samples, call = .append samples ∨ call = .appendDecodedPcm16 samples →
    reply = some true → ∃ x, session = some x ∧ x.failed = false ∧
      x.samples.length + samples.length ≤ x.expectedSamples

section Runs

variable {process : ℕ}

/-- A call by the triple of its body. -/
theorem perform_elim {environment : FileSystem.Environment} {call : Call} {s : System}
    {Q : Bool → World Writer → Prop} {E : Stop → World Writer → Prop}
    (h : Triple (fun w => w.files = s.files ∧ w.memory.state = s.memory.state)
      (call.run process) Q E) :
    (∃ reply w, perform process environment call s =
        (some reply, ⟨w.files, w.renamed, w.memory⟩) ∧ Q reply w) ∨
      ∃ stop w, perform process environment call s =
        (none, ⟨w.files, w.renamed, { w.memory with state := none }⟩) ∧ E stop w := by
  have hpost := h ⟨s.files, s.renamed, s.memory, environment, 0⟩ ⟨rfl, rfl⟩
  rw [perform]
  rcases hexec : exec (call.run process) ⟨s.files, s.renamed, s.memory, environment, 0⟩ with
    ⟨stop | reply, w⟩
  · rw [hexec] at hpost
    exact Or.inr ⟨stop, w, rfl, hpost⟩
  · rw [hexec] at hpost
    exact Or.inl ⟨reply, w, rfl, hpost⟩

/-- A call that is no commit. -/
theorem obeys_of_kept {session : Option Session} {call : Call} {reply : Option Bool}
    {before : Files} {w : World Writer} (hkept : Kept process before w) (hcall : call ≠ .commit)
    (hreply : ∀ samples, call = .append samples ∨ call = .appendDecodedPcm16 samples →
      reply = some true → ∃ x, session = some x ∧ x.failed = false ∧
        x.samples.length + samples.length ≤ x.expectedSamples) :
    Obeys process session call reply before w.files where
  changed path hpath hne := absurd (hkept path hpath) hne
  committed h := absurd h hcall
  appended := hreply

/-- A commit that came to its rename. -/
theorem obeys_of_committed {session : Option Session} {reply : Option Bool} {before : Files}
    {state : Option State} {w : World Writer} {x : Session}
    (h : Agrees process session before state) (hx : session = some x)
    (hcommitted : Committed process before x w) (hreply : reply ≠ some false) :
    Obeys process session .commit reply before w.files := by
  obtain ⟨layout, hlayout, hcontent⟩ := hcommitted.content
  have hpcm : ∀ pcm ∈ x.samples, IsPcm pcm := by
    rw [hx] at h
    cases state with
    | none => exact h.elim
    | some st => exact h.isPcm
  refine ⟨fun path hpath hne => ⟨rfl, hreply, x, hx, hcommitted.complete, ?_⟩, fun _ _ => ?_,
    fun _ h => by cases h <;> contradiction⟩
  · by_contra hpath'
    exact hne (hcommitted.kept path hpath hpath')
  · have hfits := fits_of_wavOutputLayout hlayout
    rw [← hcommitted.complete.length] at hfits
    exact ⟨x, layout, hx, hcommitted.complete, hlayout, hcontent, readsBack_canonical hfits hpcm⟩

/-- **One call.** -/
theorem perform_spec {session : Option Session} {s : System}
    (h : Agrees process session s.files s.memory.state) (environment : FileSystem.Environment)
    (call : Call) :
    Obeys process session call (perform process environment call s).1 s.files
        (perform process environment call s).2.files ∧
      Agrees process (sessionAfter session call (perform process environment call s).1)
        (perform process environment call s).2.files
        (perform process environment call s).2.memory.state := by
  have hidle : ∀ w : World Writer, w.files = s.files ∧ w.memory.state = s.memory.state →
      Idle process s.files s.memory.state w := fun w hw => ⟨fun _ _ => by rw [hw.1], hw.2⟩
  have hnone : sessionAfter session call none = none := by cases call <;> rfl
  cases call with
  | openWriter target sampleRate expectedSamples =>
    have hspec := triple_pre (openWriter_spec (staging_of_agrees h) session target sampleRate
      expectedSamples) hidle
    rcases @perform_elim process environment
        (.openWriter target sampleRate expectedSamples) s _ _ hspec with
      ⟨reply, w, heq, hleft⟩ | ⟨stop, w, heq, hkept⟩
    · rw [heq]
      exact ⟨obeys_of_kept hleft.kept (nomatch ·) (fun _ h => by cases h <;> contradiction),
        hleft.agrees⟩
    · rw [heq, hnone]
      exact ⟨obeys_of_kept hkept (nomatch ·) (fun _ h => by cases h <;> contradiction), trivial⟩
  | append samples =>
    rcases @perform_elim process environment (.append samples) s _ _
        (appendImpl_spec h samples false) with ⟨reply, w, heq, htaken, hleft⟩ | ⟨stop, w, heq, hkept⟩
    · rw [heq]
      refine ⟨obeys_of_kept hleft.kept (nomatch ·) fun samples' h hreply => ?_, hleft.agrees⟩
      rcases h with hcall | hcall
      · obtain rfl := Call.append.inj hcall
        exact htaken (Option.some.inj hreply)
      · cases hcall
    · rw [heq, hnone]
      exact ⟨obeys_of_kept hkept (nomatch ·) (fun _ _ h => (nomatch h)), trivial⟩
  | appendDecodedPcm16 samples =>
    rcases @perform_elim process environment (.appendDecodedPcm16 samples) s _ _
        (appendImpl_spec h samples true) with ⟨reply, w, heq, htaken, hleft⟩ | ⟨stop, w, heq, hkept⟩
    · rw [heq]
      refine ⟨obeys_of_kept hleft.kept (nomatch ·) fun samples' h hreply => ?_, hleft.agrees⟩
      rcases h with hcall | hcall
      · cases hcall
      · obtain rfl := Call.appendDecodedPcm16.inj hcall
        exact htaken (Option.some.inj hreply)
    · rw [heq, hnone]
      exact ⟨obeys_of_kept hkept (nomatch ·) (fun _ _ h => (nomatch h)), trivial⟩
  | commit =>
    rcases @perform_elim process environment .commit s _ _ (commit_spec h) with
      ⟨reply, w, heq, hpost⟩ | ⟨stop, w, heq, hkept | ⟨x, hx, hcommitted⟩⟩
    · rw [heq]
      cases reply with
      | false =>
        exact ⟨⟨fun path hpath hne => absurd (hpost.kept path hpath) hne,
          fun _ h => (nomatch h), fun _ h => by cases h <;> contradiction⟩, hpost.agrees⟩
      | true =>
        obtain ⟨hstate, x, hx, hcommitted⟩ := hpost
        refine ⟨obeys_of_committed h hx hcommitted (nomatch ·), ?_⟩
        rw [hstate]
        trivial
    · rw [heq, hnone]
      exact ⟨⟨fun path hpath hne => absurd (hkept path hpath) hne,
        fun _ h => (nomatch h), fun _ h => by cases h <;> contradiction⟩, trivial⟩
    · rw [heq, hnone]
      exact ⟨obeys_of_committed h hx hcommitted (nomatch ·), trivial⟩
  | abort =>
    have hspec : Triple (Idle process s.files s.memory.state) (Call.run process .abort)
        (fun _ => Idle process s.files none) (fun _ => Kept process s.files) :=
      triple_bind (abort_spec (staging_of_agrees h)) fun _ => triple_pure fun _ hw => hw
    rcases @perform_elim process environment .abort s _ _ (triple_pre hspec hidle) with
      ⟨reply, w, heq, hleft⟩ | ⟨stop, w, heq, hkept⟩
    · rw [heq]
      exact ⟨obeys_of_kept hleft.kept (nomatch ·) (fun _ h => by cases h <;> contradiction),
        hleft.left.agrees⟩
    · rw [heq, hnone]
      exact ⟨obeys_of_kept hkept (nomatch ·) (fun _ h => by cases h <;> contradiction), trivial⟩

/-- The writer agrees with its calls after every sequence of them. -/
theorem agrees_of_run {session : Option Session} {start s : System}
    {history : List (Call × Option Bool)}
    (hstart : Agrees process session start.files start.memory.state)
    (h : Run process start history s) :
    Agrees process (sessionFrom session history) s.files s.memory.state := by
  induction h with
  | nil => exact hstart
  | cons h environment call ih => exact (perform_spec ih environment call).2

/-- There is no writing, or it failed. -/
def Stopped (session : Option Session) : Prop := ∀ x, session = some x → x.failed = true

theorem stopped_of_false (session : Option Session) (call : Call) :
    Stopped (sessionAfter session call (some false)) := by
  intro x hx
  cases call with
  | openWriter target sampleRate expectedSamples => cases hx
  | commit => cases hx
  | abort => cases hx
  | append samples =>
    obtain ⟨y, -, rfl⟩ := Option.map_eq_some_iff.1 hx
    rfl
  | appendDecodedPcm16 samples =>
    obtain ⟨y, -, rfl⟩ := Option.map_eq_some_iff.1 hx
    rfl

theorem failed_append {x : Session} (h : x.failed = true) (exactPcm16 : Bool)
    (samples : List UInt32) (reply : Bool) : (x.append exactPcm16 samples reply).failed = true := by
  cases reply with
  | false => rfl
  | true => exact h

/-- Only an opening starts another writing. -/
theorem Stopped.after {session : Option Session} (h : Stopped session) {call : Call}
    {reply : Option Bool} (hcall : ∀ target sampleRate expectedSamples,
      (call, reply) ≠ (.openWriter target sampleRate expectedSamples, some true)) :
    Stopped (sessionAfter session call reply) := by
  intro x hx
  cases reply with
  | none => cases call <;> cases hx
  | some reply =>
    cases call with
    | openWriter target sampleRate expectedSamples =>
      cases reply with
      | false => cases hx
      | true => exact absurd rfl (hcall target sampleRate expectedSamples)
    | commit => cases hx
    | abort => cases hx
    | append samples =>
      obtain ⟨y, hy, rfl⟩ := Option.map_eq_some_iff.1 hx
      exact failed_append (h y hy) _ _ _
    | appendDecodedPcm16 samples =>
      obtain ⟨y, hy, rfl⟩ := Option.map_eq_some_iff.1 hx
      exact failed_append (h y hy) _ _ _

/-- A call that adds samples or publishes them. -/
def Call.Writes (call : Call) : Prop :=
  call = .commit ∨ ∃ samples, call = .append samples ∨ call = .appendDecodedPcm16 samples

/-- Without a writing nothing is taken, published or changed. -/
theorem Obeys.of_stopped {session : Option Session} {call : Call} {reply : Option Bool}
    {before after : Files} (h : Obeys process session call reply before after)
    (hstopped : Stopped session) :
    (call.Writes → reply ≠ some true) ∧
      ∀ path, ¬IsStaging process path → find after path = find before path := by
  refine ⟨?_, fun path hpath => ?_⟩
  · rintro (hcommit | ⟨samples, hsamples⟩) hreply
    · obtain ⟨x, -, hx, hcomplete, -⟩ := h.committed hcommit hreply
      exact absurd (hstopped x hx) (Bool.eq_false_iff.1 hcomplete.healthy)
    · obtain ⟨x, hx, hhealthy, -⟩ := h.appended samples hsamples hreply
      exact absurd (hstopped x hx) (Bool.eq_false_iff.1 hhealthy)
  · by_contra hne
    obtain ⟨-, -, x, hx, hcomplete, -⟩ := h.changed path hpath hne
    exact absurd (hstopped x hx) (Bool.eq_false_iff.1 hcomplete.healthy)

/-- After a failure nothing is taken, published or changed until the next opening. -/
theorem stopped_of_run {session : Option Session} {start s : System}
    {history : List (Call × Option Bool)}
    (hstart : Agrees process session start.files start.memory.state) (hstopped : Stopped session)
    (h : Run process start history s)
    (hopen : ∀ target sampleRate expectedSamples,
      (.openWriter target sampleRate expectedSamples, some true) ∉ history) :
    Stopped (sessionFrom session history) ∧
      (∀ entry ∈ history, entry.1.Writes → entry.2 ≠ some true) ∧
        ∀ path, ¬IsStaging process path → find s.files path = find start.files path := by
  induction h with
  | nil => exact ⟨hstopped, fun _ h => (nomatch h), fun _ _ => rfl⟩
  | cons h environment call ih =>
    obtain ⟨hsession, hwrites, hkept⟩ := ih fun target sampleRate expectedSamples hmem =>
      hopen target sampleRate expectedSamples (List.mem_cons_of_mem _ hmem)
    obtain ⟨hcall, hfiles⟩ := (perform_spec (agrees_of_run hstart h) environment call).1.of_stopped
      hsession
    refine ⟨hsession.after fun target sampleRate expectedSamples heq => ?_, ?_, fun path hpath => ?_⟩
    · exact hopen target sampleRate expectedSamples (heq ▸ List.mem_cons_self)
    · exact List.forall_mem_cons.2 ⟨hcall, hwrites⟩
    · rw [hfiles path hpath, hkept path hpath]

/-- **The protocol.** After every sequence of calls, the next one obeys the writing that the calls
describe; and when it fails, then up to the next opening nothing is taken, published or changed. -/
theorem obeys_of_run {start s : System} {history : List (Call × Option Bool)}
    (hstart : start.memory.state = none) (h : Run process start history s)
    (environment : FileSystem.Environment) (call : Call) :
    Obeys process (sessionFrom none history) call (perform process environment call s).1 s.files
        (perform process environment call s).2.files ∧
      ((perform process environment call s).1 = some false → ∀ later t,
        Run process (perform process environment call s).2 later t →
        (∀ target sampleRate expectedSamples,
          (.openWriter target sampleRate expectedSamples, some true) ∉ later) →
        (∀ entry ∈ later, entry.1.Writes → entry.2 ≠ some true) ∧
          ∀ path, ¬IsStaging process path → find t.files path = find s.files path) := by
  have hagrees : Agrees process none start.files start.memory.state := by
    rw [hstart]
    trivial
  obtain ⟨hobeys, hnext⟩ := perform_spec (agrees_of_run hagrees h) environment call
  refine ⟨hobeys, fun hfalse later t hlater hopen => ?_⟩
  rw [hfalse] at hnext hobeys
  obtain ⟨-, hwrites, hkept⟩ := stopped_of_run hnext (stopped_of_false _ call) hlater hopen
  refine ⟨hwrites, fun path hpath => (hkept path hpath).trans ?_⟩
  by_contra hne
  exact absurd rfl (hobeys.changed path hpath hne).2.1

end Runs

/-! ### Two sequences of calls -/

/-- A sequence of calls, with their replies and the system after them. -/
def callAll (process : ℕ) (environment : FileSystem.Environment) (start : System) :
    List Call → List (Call × Option Bool) × System
  | [] => ([], start)
  | call :: earlier =>
    let (history, s) := callAll process environment start earlier
    let (reply, s') := perform process environment call s
    ((call, reply) :: history, s')

theorem run_callAll (process : ℕ) (environment : FileSystem.Environment) (start : System)
    (calls : List Call) : Run process start (callAll process environment start calls).1
      (callAll process environment start calls).2 := by
  induction calls with
  | nil => exact .nil
  | cons call calls ih => exact ih.cons environment call

/-- An environment in which nothing fails. -/
def quiet : FileSystem.Environment := ⟨fun _ => .none, id, fun _ => List.Perm.refl _⟩

def emptySystem : System := ⟨[], [], ⟨0, none⟩⟩

def sampleTarget : Target := ⟨bytes "out", bytes "take.wav"⟩

/-- One half and two, clamped, then minus one exactly; the latest call first. -/
def sampleCalls : List Call :=
  [.appendDecodedPcm16 [0xBF800000], .append [0x3F000000, 0x40000000],
    .openWriter sampleTarget 8000 3]

theorem obeys_of_run_sample :
    Obeys 7 (some ⟨sampleTarget, 8000, 3, [16383, 32767, -32768], false⟩) .commit (some true)
      (callAll 7 quiet emptySystem sampleCalls).2.files
      (perform 7 quiet .commit (callAll 7 quiet emptySystem sampleCalls).2).2.files := by
  have hobeys := (obeys_of_run rfl (run_callAll 7 quiet emptySystem sampleCalls) quiet .commit).1
  have hsession : sessionFrom none (callAll 7 quiet emptySystem sampleCalls).1 =
      some ⟨sampleTarget, 8000, 3, [16383, 32767, -32768], false⟩ := by decide +kernel
  have hreply : (perform 7 quiet .commit (callAll 7 quiet emptySystem sampleCalls).2).1 =
      some true := by decide +kernel
  rwa [hsession, hreply] at hobeys

/-- A target with the name of the next staging file. -/
def stagingTarget : Target := ⟨bytes "out", temporaryName 7 0⟩

/-- An append of NaN, and one of zero after another opening; the latest call first. -/
def reopenedCalls : List Call :=
  [.append [0], .openWriter sampleTarget 8000 1, .append [0x7FC00000],
    .openWriter sampleTarget 8000 1]

/-- An opening changes a target with the name of a staging file, and a later opening ends a
failure. -/
theorem not_obeys_always :
    (∃ s, perform 7 quiet (.openWriter stagingTarget 8000 0) emptySystem = (some true, s) ∧
      find s.files stagingTarget.path ≠ find emptySystem.files stagingTarget.path) ∧
    ∃ history s, Run 7 emptySystem history s ∧ history =
      [(.append [0], some true), (.openWriter sampleTarget 8000 1, some true),
        (.append [0x7FC00000], some false), (.openWriter sampleTarget 8000 1, some true)] := by
  constructor
  · have hreply : (perform 7 quiet (.openWriter stagingTarget 8000 0) emptySystem).1 =
        some true := by decide
    have hfiles : find (perform 7 quiet (.openWriter stagingTarget 8000 0) emptySystem).2.files
        stagingTarget.path ≠ find emptySystem.files stagingTarget.path := by decide
    exact ⟨_, Prod.ext hreply rfl, hfiles⟩
  · refine ⟨_, _, run_callAll 7 quiet emptySystem reopenedCalls, ?_⟩
    decide +kernel

end Resonantia.Io.WavWriter
