import Resonantia.Io.SpoolStorage
import Resonantia.Io.WavProtocol
import Resonantia.Pipeline.Loudness

/-!
# The output file of a conversion

`Pipeline.SampleWriter` is the WAV writer as `write_final_output` sees it, over storage that works.
Over float words it takes what the writer of files takes, and a commit leaves its samples in the
file.

## Main results

* `Pipeline.append_of_run`: what the writer of files takes, `Pipeline.SampleWriter` takes.
* `Pipeline.canonical_of_commit`: the file behind a commit.
-/

namespace Resonantia.Pipeline

open Effect FileSystem FloatWord Io.WavWriter
open Io (Sample)

variable {process : ℕ}

/-- The writer of files takes no sample that is not finite. -/
theorem isFinite_of_append {environment : FileSystem.Environment} {samples : List UInt32}
    {s : System} (h : (perform process environment (.append samples) s).1 = some true) :
    samples.any (fun value => !Sample.isFinite value) = false := by
  by_contra hany
  have hbad := Bool.eq_true_of_not_eq_false hany
  have hrejects : samples.any (rejects false) = true := by
    obtain ⟨value, hvalue, hfinite⟩ := List.any_eq_true.1 hbad
    refine List.any_eq_true.2 ⟨value, hvalue, ?_⟩
    rw [rejects, Bool.false_and, Bool.or_false]
    exact hfinite
  have hne : samples ≠ [] := by
    rintro rfl
    cases hbad
  have hspec : Triple (fun w => w.files = s.files ∧ w.memory.state = s.memory.state)
      (Call.run process (.append samples)) (fun reply _ => reply = false) fun _ _ => True := by
    refine triple_get_bind fun w₀ _ => ?_
    cases w₀.memory.state with
    | none => exact triple_pure fun _ _ => rfl
    | some st =>
      dsimp only
      by_cases hfailed : st.failed = true
      · rw [if_pos hfailed]
        exact triple_pure fun _ _ => rfl
      · rw [if_neg hfailed, if_neg hne, if_pos hrejects]
        exact triple_bind (triple_trivial _) fun _ => triple_pure fun _ _ => rfl
  rcases @perform_elim process environment (.append samples) s _ _ hspec with
    ⟨reply, w, heq, rfl⟩ | ⟨stop, w, heq, -⟩
  · rw [heq] at h
    cases h
  · rw [heq] at h
    cases h

/-- The calls that write some blocks, the latest call first. -/
def appended (blocks : List (List UInt32)) : List (Call × Option Bool) :=
  blocks.reverse.map fun block => (.append block, some true)

/-- A writing of a file has what `SampleWriter` has taken. -/
structure Mirrors (writer : SampleWriter UInt32) (session : Session) : Prop where
  healthy : session.failed = false
  expectedSamples : session.expectedSamples = writer.expectedSamples
  samples : session.samples = writer.written.map (quantize false)

/-- A block that the writer of files takes. -/
theorem Mirrors.append {writer : SampleWriter UInt32} {session : Session} {samples : List UInt32}
    {s : System} {environment : FileSystem.Environment} (h : Mirrors writer session)
    (hagrees : Agrees process (some session) s.files s.memory.state)
    (hreply : (perform process environment (.append samples) s).1 = some true) :
    ∃ writer', writer.append samples = some writer' ∧
      writer' = { writer with written := writer.written ++ samples } ∧
      Mirrors writer' (session.append false samples true) := by
  obtain ⟨x, hx, -, hlength⟩ :=
    (perform_spec hagrees environment (.append samples)).1.appended samples (Or.inl rfl) hreply
  obtain rfl := Option.some.inj hx
  refine ⟨_, ?_, rfl, h.healthy, h.expectedSamples, ?_⟩
  · rw [SampleWriter.append]
    by_cases hnil : samples = []
    · rw [if_pos hnil, hnil, List.append_nil]
    · rw [if_neg hnil, isFinite_of_append hreply, if_neg Bool.false_ne_true, if_neg]
      rw [h.samples, List.length_map, h.expectedSamples] at hlength
      exact Nat.not_lt.2 hlength
  · change session.samples ++ samples.map (quantize false) = _
    rw [h.samples, List.map_append]

/-- The last call of a sequence. -/
theorem exists_of_run_cons {start s : System} {call : Call} {reply : Option Bool}
    {history : List (Call × Option Bool)} (h : Run process start ((call, reply) :: history) s) :
    ∃ environment s₀, Run process start history s₀ ∧
      (perform process environment call s₀).1 = reply ∧
        s = (perform process environment call s₀).2 := by
  generalize hcalls : (call, reply) :: history = calls at h
  cases h with
  | nil => cases hcalls
  | cons h environment call' =>
    obtain ⟨hcall, rfl⟩ := List.cons.inj hcalls
    obtain ⟨rfl, rfl⟩ := Prod.mk.inj hcall
    exact ⟨environment, _, h, rfl, rfl⟩

section Runs

variable {start s : System} {target : Target} {sampleRate : ℤ} {expectedSamples : ℕ}
  {earlier : List (Call × Option Bool)}

/-- **What the writer of files takes, `SampleWriter` takes**, after every sequence of calls that
ends in an opening and some blocks. -/
theorem append_of_run (hstart : start.memory.state = none) (blocks : List (List UInt32))
    (h : Run process start (appended blocks ++
      (.openWriter target sampleRate expectedSamples, some true) :: earlier) s) :
    blocks.foldlM SampleWriter.append ⟨expectedSamples, []⟩ =
        some ⟨expectedSamples, blocks.flatten⟩ ∧
      ∃ session, Mirrors ⟨expectedSamples, blocks.flatten⟩ session ∧
        session.target = target ∧ session.sampleRate = sampleRate ∧
          Agrees process (some session) s.files s.memory.state := by
  have hagrees : Agrees process none start.files start.memory.state := by
    rw [hstart]
    trivial
  induction blocks using List.reverseRecOn generalizing s with
  | nil =>
    exact ⟨rfl, ⟨target, sampleRate, expectedSamples, [], false⟩, ⟨rfl, rfl, rfl⟩, rfl, rfl,
      agrees_of_run hagrees h⟩
  | append_singleton blocks block ih =>
    rw [appended, List.reverse_concat, List.map_cons, List.cons_append] at h
    obtain ⟨environment, s₀, hbefore, hreply, rfl⟩ := exists_of_run_cons h
    obtain ⟨htaken, session, hmirrors, htarget, hrate, hsession⟩ := ih hbefore
    obtain ⟨_, hwriter, rfl, hnext⟩ := hmirrors.append hsession hreply
    have hafter := (perform_spec hsession environment (.append block)).2
    rw [hreply] at hafter
    rw [List.foldlM_append, htaken, List.flatten_append, List.flatten_singleton]
    exact ⟨by simpa using hwriter, _, hnext, htarget, hrate, hafter⟩

/-- **The file behind a commit** has the samples that `SampleWriter` took. -/
theorem canonical_of_commit (hstart : start.memory.state = none) (blocks : List (List UInt32))
    (h : Run process start (appended blocks ++
      (.openWriter target sampleRate expectedSamples, some true) :: earlier) s)
    {environment : FileSystem.Environment}
    (hcommit : (perform process environment .commit s).1 = some true) :
    ∃ writer layout, blocks.foldlM SampleWriter.append ⟨expectedSamples, []⟩ = some writer ∧
      writer.written.length = writer.expectedSamples ∧
        wavOutputLayout sampleRate expectedSamples = some layout ∧
          find (perform process environment .commit s).2.files target.path =
            some (canonical sampleRate layout (writer.written.map (quantize false))) := by
  obtain ⟨htaken, session, hmirrors, rfl, rfl, hsession⟩ := append_of_run hstart blocks h
  obtain ⟨x, layout, hx, hcomplete, hlayout, hfile, -⟩ :=
    (perform_spec hsession environment .commit).1.committed rfl hcommit
  obtain rfl := Option.some.inj hx
  rw [hmirrors.expectedSamples] at hlayout
  rw [hmirrors.samples] at hfile
  refine ⟨_, layout, htaken, ?_, hlayout, hfile⟩
  have hlength := hcomplete.length
  rwa [hmirrors.samples, List.length_map, hmirrors.expectedSamples] at hlength

end Runs

end Resonantia.Pipeline
