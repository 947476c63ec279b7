import Mathlib.Logic.Function.Basic
import Mathlib.Tactic.ByContra
import Mathlib.Tactic.SplitIfs
import Resonantia.Core.Sha256
import Resonantia.Library.InputStream
import Resonantia.Library.Transition

/-!
# Completed stages of a task

A task keeps its work directory over several executions. The identity of its workflow and one
marker for each completed stage are small files that are published by a rename; a marker names the
file of the stage and its digest. An execution may fail or crash between any two file operations,
and the files of the stages may be changed by others.

## Main definitions

* `Web.TaskArtifacts.Directory`: the work directory.
* `Web.TaskArtifacts.openArtifacts`, `Web.TaskArtifacts.completedStage`,
  `Web.TaskArtifacts.commit`, `Web.TaskArtifacts.publishResult`: the operations.
* `Web.TaskArtifacts.Step`: an operation under faults, or a change by others.

## Main results

* `Web.TaskArtifacts.parseMarker_stageText`: every marker is read back.
* `Web.TaskArtifacts.completed_of_run`: a completed stage was committed, with the digest that its
  file has now.
* `Web.TaskArtifacts.completedStage_of_run`: markers are complete or absent after every crash.
* `Web.TaskArtifacts.completed_unique`: a completed stage is not committed again.
* `Web.TaskArtifacts.openArtifacts_of_run`: a directory keeps its identity.
* `Web.TaskArtifacts.retainedOutput_of_run`: both lookups of a stage agree.
-/

namespace Resonantia.Web.TaskArtifacts

open ByteString InputStream Transition

/-! ### The directory -/

inductive Node
  | regular (content : Bytes) (links : ℕ)
  | directory
  | symlink
  | other
deriving DecidableEq

/-- The files below the work directory, by the components of their paths. -/
abbrev Directory := List Bytes → Option Node

/-- Regular files may be removed and replaced. -/
def Node.isRegular : Option Node → Bool
  | some (.regular ..) => true
  | _ => false

/-- The digest that `sha256_file` returns for a file of at most 2 GiB. -/
def fileDigest (content : Bytes) : Option Bytes :=
  if content.length ≤ 2 * 1024 * 1024 * 1024 then
    some (Core.Sha256.hexText (SecureHash.sha256 content))
  else none

/-- `core::valid_digest`. -/
def validDigest (s : Bytes) : Bool :=
  s.length = 64 && s.all fun c => (bytes "0123456789abcdef").contains c

/-- `key`. -/
def validKey (s : Bytes) : Bool :=
  s ≠ [] && s.length ≤ 64 &&
    s.all fun c => (bytes "abcdefghijklmnopqrstuvwxyz0123456789_-").contains c

def identityName : Bytes := bytes "workflow.identity"

def stageName (stage : Bytes) : Bytes := bytes "stage." ++ stage ++ bytes ".done"

def pendingName (name : Bytes) : Bytes := name ++ bytes ".pending"

/-- The text of the identity marker. -/
def identityText (identity : Bytes) : Bytes := bytes "RESONANTIA_WORKFLOW 1\n" ++ identity ++ [10]

/-- The text of a stage marker. -/
def stageText (identity stage relative digest : Bytes) : Bytes :=
  bytes "RESONANTIA_STAGE 1\n" ++ identity ++ [10] ++ stage ++ [10] ++ quoted relative ++ [10] ++
    digest ++ [10]

/-! ### Reading -/

/-- `read`: a marker is one small regular file. -/
def read (d : Directory) (name : Bytes) : Except String (Option Bytes) :=
  match d [name] with
  | none => .ok none
  | some (.regular content links) =>
    if links = 1 ∧ 0 < content.length ∧ content.length ≤ 8192 then .ok (some content)
    else .error "invalid artifact marker"
  | some _ => .error "invalid artifact marker"

/-- The components of a relative path; a trailing separator leaves an empty one. -/
def components (path : Bytes) : List Bytes :=
  let parts := path.splitOn 47
  parts.dropLast.filter (· ≠ []) ++ parts.getLast?.toList

/-- The loop of `artifact` over the components. -/
def walk (d : Directory) : List Bytes → List Bytes → Except String (List Bytes)
  | result, [] =>
    if Node.isRegular (d result) then .ok result
    else .error "stage output missing or not regular"
  | result, part :: parts =>
    if part = bytes ".." ∨ part = bytes "." ∨ part = [] then
      .error "invalid stage output component"
    else if d (result ++ [part]) = some .symlink then .error "stage output uses symlink"
    else walk d (result ++ [part]) parts

/-- `artifact`. -/
def artifact (d : Directory) (relative : Bytes) : Except String (List Bytes) :=
  if relative = [] ∨ relative.head? = some 47 ∨ 4096 < relative.length then
    .error "invalid stage output path"
  else walk d [] (components relative)

/-- `sha256_file` of a path. -/
def sha256File (d : Directory) (path : List Bytes) : Except String Bytes :=
  match d path with
  | some (.regular content _) =>
    match fileDigest content with
    | some digest => .ok digest
    | none => .error "cannot hash bounded regular file"
  | _ => .error "cannot hash bounded regular file"

/-- The fields of a stage marker, and what follows them. -/
structure Marker where
  header : Bytes
  identity : Bytes
  stage : Bytes
  path : Bytes
  hash : Bytes
  rest : Bytes
deriving DecidableEq

/-- The extraction of the fields from the text. -/
def parseMarker (text : Bytes) : Option Marker :=
  let line := text.span (· ≠ 10)
  (readToken line.2.tail).bind fun identity =>
    (readToken identity.2).bind fun stage =>
      (readQuoted stage.2).bind fun path =>
        (readToken path.2).map fun hash =>
          { header := line.1, identity := identity.1, stage := stage.1, path := path.1
            hash := hash.1, rest := hash.2 }

/-- `completed_stage`. -/
def completedStage (d : Directory) (identity stage : Bytes) (verifyChecksum : Bool) :
    Except String (Option (List Bytes)) :=
  if validKey stage = false then .error "invalid stage key"
  else
    match read d (stageName stage) with
    | .error e => .error e
    | .ok none => .ok none
    | .ok (some text) =>
      match parseMarker text with
      | none => .error "malformed stage marker"
      | some marker =>
        if ¬(skipWs marker.rest = [] ∧ marker.header = bytes "RESONANTIA_STAGE 1" ∧
            marker.identity = identity ∧ marker.stage = stage ∧ validDigest marker.hash = true) then
          .error "stage identity mismatch"
        else
          match artifact d marker.path with
          | .error e => .error e
          | .ok file =>
            if verifyChecksum then
              match sha256File d file with
              | .error e => .error e
              | .ok hash =>
                if hash = marker.hash then .ok (some file)
                else .error "completed stage artifact checksum mismatch"
            else .ok (some file)

/-- `TaskArtifacts::retained_output`: the stage is read with the identity that the directory has. -/
def retainedOutput (d : Directory) (stage : Bytes) (verifyChecksum : Bool) :
    Except String (Option (List Bytes)) :=
  match read d identityName with
  | .error e => .error e
  | .ok none => .ok none
  | .ok (some saved) =>
    let line := saved.span (· ≠ 10)
    match readToken line.2.tail with
    | none => .error "invalid saved workflow identity"
    | some (identity, rest) =>
      if skipWs rest = [] ∧ line.1 = bytes "RESONANTIA_WORKFLOW 1" ∧
          validDigest identity = true then
        completedStage d identity stage verifyChecksum
      else .error "invalid saved workflow identity"

/-! ### Writing -/

/-- Where a publication fails; `crash` ends the process there. -/
inductive PublishFault
  | sync
  | staging
  | write (count : ℕ) (crash : Bool)
  | fileSync (crash : Bool)
  | rename (crash : Bool)
  | directorySync
deriving DecidableEq

/-- What is left of the staging file. -/
def leave (d : Directory) (pending : List Bytes) (content : Bytes) (crash : Bool) : Directory :=
  Function.update d pending (if crash then some (.regular content 1) else none)

/-- `remove_pending` -/
def removePending (d : Directory) (pending : List Bytes) : Except String Directory :=
  match d pending with
  | none => .ok d
  | some (.regular ..) => .ok (Function.update d pending none)
  | some _ => .error "artifact staging path is not regular"

/-- `publish` -/
def publish (d : Directory) (name text : Bytes) (fault : Option PublishFault) :
    Except String Unit × Directory :=
  if 8192 < text.length then (.error "artifact marker too large", d)
  else
    match removePending d [pendingName name] with
    | .error e => (.error e, d)
    | .ok d =>
      match fault with
      | some .sync | some .staging => (.error "marker staging failed", d)
      | some (.write count crash) =>
        (.error "marker write failed", leave d [pendingName name] (text.take count) crash)
      | some (.fileSync crash) =>
        (.error "marker file sync failed", leave d [pendingName name] text crash)
      | some (.rename crash) =>
        (.error "marker publish failed", leave d [pendingName name] text crash)
      | some .directorySync =>
        (.error "artifact sync failed", Function.update d [name] (some (.regular text 1)))
      | none => (.ok (), Function.update d [name] (some (.regular text 1)))

/-- The constructor of `TaskArtifacts`: the identity that the object has then. -/
def openArtifacts (d : Directory) (identity : Bytes) (compatible : List Bytes)
    (fault : Option PublishFault) : Except String Bytes × Directory :=
  if validDigest identity = false then (.error "invalid workflow identity", d)
  else if 2 < compatible.length then (.error "too many compatible workflow identities", d)
  else if compatible.any (fun digest => !validDigest digest) then
    (.error "invalid compatible workflow identity", d)
  else
    match read d identityName with
    | .error e => (.error e, d)
    | .ok (some saved) =>
      if saved = identityText identity then (.ok identity, d)
      else
        match compatible.find? fun digest => saved = identityText digest with
        | some digest => (.ok digest, d)
        | none => (.error "保存任务的素材、参数或计算程序校验不一致，无法安全复用；旧结果仍保留", d)
    | .ok none =>
      match publish d identityName (identityText identity) fault with
      | (.ok (), d) => (.ok identity, d)
      | (.error e, d) => (.error e, d)

/-- `TaskArtifacts::commit`, for a path that is already relative to the directory. -/
def commit (d : Directory) (identity stage relative : Bytes) (fault : Option PublishFault) :
    Except String Unit × Directory :=
  if validKey stage = false then (.error "invalid stage key", d)
  else
    match artifact d relative with
    | .error e => (.error e, d)
    | .ok file =>
      match completedStage d identity stage true with
      | .error e => (.error e, d)
      | .ok (some old) =>
        if old = file then (.ok (), d) else (.error "cannot replace completed stage", d)
      | .ok none =>
        match sha256File d file with
        | .error e => (.error e, d)
        | .ok digest =>
          if fault = some .sync then (.error "artifact sync failed", d)
          else publish d (stageName stage) (stageText identity stage relative digest) fault

/-- `TaskArtifacts::publish_result` -/
def publishResult (d : Directory) (relative : Bytes) (fault : Option PublishFault) :
    Except String Unit × Directory :=
  match artifact d relative with
  | .error e => (.error e, d)
  | .ok file =>
    match removePending d [bytes "result.wav.pending"] with
    | .error e => (.error e, d)
    | .ok d =>
      match d file with
      | some (.regular content _) =>
        match fault with
        | some .sync | some .staging => (.error "cannot copy file", d)
        | some (.write count _) =>
          (.error "cannot copy file",
            leave d [bytes "result.wav.pending"] (content.take count) true)
        | some (.fileSync _) =>
          (.error "artifact sync failed", leave d [bytes "result.wav.pending"] content true)
        | some (.rename _) =>
          (.error "result publish failed", leave d [bytes "result.wav.pending"] content true)
        | some .directorySync | none =>
          if d [bytes "result.wav"] = some .directory then
            (.error "result publish failed", leave d [bytes "result.wav.pending"] content true)
          else
            (if fault = none then .ok () else .error "artifact sync failed",
              Function.update d [bytes "result.wav"] (some (.regular content 1)))
      | _ => (.error "cannot copy file", d)

/-! ### Markers are read back -/

theorem span_line {line rest : Bytes} (h : 10 ∉ line) :
    (line ++ 10 :: rest).span (· ≠ 10) = (line, 10 :: rest) := by
  refine span_append_follow (fun c hc => ?_) fun c hc => ?_
  · simp only [decide_eq_true_eq]
    rintro rfl
    exact h hc
  · obtain rfl := Option.some.inj hc
    rfl

theorem not_isSpace_of_mem {allowed s : Bytes} (hallowed : ∀ c ∈ allowed, isSpace c = false)
    (h : (s.all fun c => allowed.contains c) = true) : ∀ c ∈ s, isSpace c = false := by
  intro c hc
  rw [List.all_eq_true] at h
  exact hallowed c (by simpa using h c hc)

theorem token_of_validDigest {s : Bytes} (h : validDigest s = true) :
    s ≠ [] ∧ ∀ c ∈ s, isSpace c = false := by
  rw [validDigest, Bool.and_eq_true, decide_eq_true_eq] at h
  refine ⟨?_, not_isSpace_of_mem (by decide +kernel) h.2⟩
  rintro rfl
  exact absurd h.1 (by decide)

theorem token_of_validKey {s : Bytes} (h : validKey s = true) :
    s ≠ [] ∧ ∀ c ∈ s, isSpace c = false := by
  rw [validKey, Bool.and_eq_true, Bool.and_eq_true, decide_eq_true_eq] at h
  exact ⟨h.1.1, not_isSpace_of_mem (by decide +kernel) h.2⟩

/-- **Every marker is read back**, whatever bytes its path has. -/
theorem parseMarker_stageText {identity stage digest : Bytes} (relative : Bytes)
    (hidentity : validDigest identity = true) (hstage : validKey stage = true)
    (hdigest : validDigest digest = true) :
    parseMarker (stageText identity stage relative digest) =
      some { header := bytes "RESONANTIA_STAGE 1", identity, stage, path := relative
             hash := digest, rest := [10] } := by
  obtain ⟨hine, hispace⟩ := token_of_validDigest hidentity
  obtain ⟨hsne, hsspace⟩ := token_of_validKey hstage
  obtain ⟨hdne, hdspace⟩ := token_of_validDigest hdigest
  have htext : stageText identity stage relative digest =
      bytes "RESONANTIA_STAGE 1" ++ 10 :: (identity ++ ([10] ++ (stage ++ ([10] ++
        (quoted relative ++ ([10] ++ (digest ++ [10]))))))) := by
    simp [stageText, bytes, byte]
  have hline := @span_line (bytes "RESONANTIA_STAGE 1") (identity ++ ([10] ++ (stage ++ ([10] ++
    (quoted relative ++ ([10] ++ (digest ++ [10]))))))) (by decide)
  have htoken : ∀ {t : Bytes} {rest : Bytes}, t ≠ [] → (∀ c ∈ t, isSpace c = false) →
      readToken ([10] ++ (t ++ ([10] ++ rest))) = some (t, [10] ++ rest) := fun hne hspace =>
    readsBack_token hne hspace _ _ space_feed (follow_feed _)
  have hfirst : readToken (identity ++ ([10] ++ (stage ++ ([10] ++ (quoted relative ++ ([10] ++
      (digest ++ [10]))))))) = some (identity, [10] ++ (stage ++ ([10] ++ (quoted relative ++
      ([10] ++ (digest ++ [10])))))) :=
    readToken_append hine hispace (follow_feed _)
  have hquoted := (needs_quoted space_feed relative).whole ([10] ++ (digest ++ [10]))
  have hlast : readToken ([10] ++ (digest ++ [10])) = some (digest, [10]) :=
    readsBack_token hdne hdspace [10] [10] space_feed (follow_cons (by decide) [])
  rw [List.append_assoc] at hquoted
  rw [parseMarker, htext, hline, List.tail_cons, hfirst, Option.bind_some, htoken hsne hsspace,
    Option.bind_some, hquoted, Option.bind_some, hlast, Option.map_some]

/-! ### Steps -/

/-- A stage that was committed, with the content that its file had. -/
structure Commit where
  identity : Bytes
  stage : Bytes
  relative : Bytes
  content : Bytes
deriving DecidableEq

/-- The directory, the identity of the open object, and the commits whose marker was published. -/
structure World where
  dir : Directory
  session : Option Bytes := none
  log : List Commit := []

/-- The content of the file of a relative path. -/
def contentAt (d : Directory) (relative : Bytes) : Bytes :=
  match artifact d relative with
  | .ok file =>
    match d file with
    | some (.regular content _) => content
    | _ => []
  | .error _ => []

/-- The names of markers. -/
def IsMarker (name : Bytes) : Prop :=
  name = identityName ∨ ∃ stage, validKey stage = true ∧ name = stageName stage

/-- The object and others work on the directory; others leave the markers alone. An object that
fails or crashes may be dropped, and another one opened. -/
inductive Step : World → Unit → World → Prop
  | opened {w : World} {d : Directory} {identity : Bytes} {compatible : List Bytes}
      {fault : Option PublishFault} {result : Except String Bytes}
      (h : openArtifacts w.dir identity compatible fault = (result, d)) :
      Step w () { w with dir := d, session := result.toOption }
  | committed {w : World} {d : Directory} {identity stage relative : Bytes}
      {fault : Option PublishFault} {result : Except String Unit}
      (hsession : w.session = some identity)
      (h : commit w.dir identity stage relative fault = (result, d)) :
      Step w () { w with
        dir := d
        log :=
          if d [stageName stage] = w.dir [stageName stage] then w.log
          else ⟨identity, stage, relative, contentAt w.dir relative⟩ :: w.log }
  | resulted {w : World} {d : Directory} {relative : Bytes} {fault : Option PublishFault}
      {result : Except String Unit} (h : publishResult w.dir relative fault = (result, d)) :
      Step w () { w with dir := d }
  | dropped {w : World} : Step w () { w with session := none }
  | changed {w : World} {d : Directory} (h : ∀ name, IsMarker name → d [name] = w.dir [name]) :
      Step w () { w with dir := d }

/-- Runs of one task directory. -/
abbrev Run : World → World → Prop := Reach Step fun _ => True

/-- A work directory without markers. -/
structure Fresh (w : World) : Prop where
  markers : ∀ name, IsMarker name → w.dir [name] = none
  session : w.session = none
  log : w.log = []

/-! ### Names -/

theorem stageName_injective {stage stage' : Bytes} (h : stageName stage = stageName stage') :
    stage = stage' :=
  List.append_cancel_left (List.append_cancel_right h)

theorem head?_stageName (stage : Bytes) : (stageName stage).head? = some 115 := rfl

theorem getLast?_stageName (stage : Bytes) : (stageName stage).getLast? = some 101 := by
  rw [stageName, List.getLast?_append]
  rfl

theorem stageName_ne_identityName (stage : Bytes) : stageName stage ≠ identityName := by
  intro h
  have hhead := congrArg List.head? h
  rw [head?_stageName] at hhead
  exact absurd hhead (by decide)

theorem getLast?_pendingName (name : Bytes) : (pendingName name).getLast? = some 103 := by
  rw [pendingName, List.getLast?_append]
  rfl

theorem pendingName_ne {name marker : Bytes} (h : IsMarker marker) : pendingName name ≠ marker := by
  intro hname
  have hlast := congrArg List.getLast? hname
  rw [getLast?_pendingName] at hlast
  rcases h with rfl | ⟨stage, -, rfl⟩
  · exact absurd hlast (by decide)
  · rw [getLast?_stageName] at hlast
    exact absurd hlast (by decide)

theorem result_ne {name marker : Bytes} (h : IsMarker marker) (hname : name.head? = some 114) :
    name ≠ marker := by
  rintro rfl
  rcases h with rfl | ⟨stage, -, rfl⟩
  · exact absurd hname (by decide)
  · rw [head?_stageName] at hname
    exact absurd hname (by decide)

theorem identityText_injective {identity identity' : Bytes}
    (h : identityText identity = identityText identity') : identity = identity' :=
  List.append_cancel_left (List.append_cancel_right h)

/-! ### What the operations do -/

variable {d d' : Directory} {identity identity' stage relative name text : Bytes}
  {compatible : List Bytes} {fault : Option PublishFault}

theorem removePending_eq {pending : List Bytes} {path : List Bytes}
    (h : removePending d pending = .ok d') (hne : path ≠ pending) : d' path = d path := by
  rw [removePending.eq_def] at h
  split at h
  · rw [← Except.ok.inj h]
  · rw [← Except.ok.inj h, Function.update_of_ne hne]
  · cases h

/-- A publication touches its staging file and its marker only, and the marker only as a whole. -/
theorem publish_cases {result : Except String Unit} (h : publish d name text fault = (result, d')) :
    ((∀ path, path ≠ [pendingName name] → d' path = d path) ∧ ∃ e, result = .error e) ∨
      ((∀ path, path ≠ [pendingName name] → path ≠ [name] → d' path = d path) ∧
        d' [name] = some (.regular text 1) ∧ text.length ≤ 8192) := by
  rw [publish] at h
  split at h
  · obtain ⟨rfl, rfl⟩ := Prod.mk.inj h
    exact Or.inl ⟨fun _ _ => rfl, _, rfl⟩
  rename_i hlength
  split at h
  · obtain ⟨rfl, rfl⟩ := Prod.mk.inj h
    exact Or.inl ⟨fun _ _ => rfl, _, rfl⟩
  rename_i d₁ hremove
  have hleave : ∀ content crash path, path ≠ [pendingName name] →
      leave d₁ [pendingName name] content crash path = d path := by
    intro content crash path hne
    rw [leave, Function.update_of_ne hne, removePending_eq hremove hne]
  have hplaced : ∀ path, path ≠ [pendingName name] → path ≠ [name] →
      Function.update d₁ [name] (some (.regular text 1)) path = d path := by
    intro path hne hname
    rw [Function.update_of_ne hname, removePending_eq hremove hne]
  split at h
  · obtain ⟨rfl, rfl⟩ := Prod.mk.inj h
    exact Or.inl ⟨fun path hne => removePending_eq hremove hne, _, rfl⟩
  · obtain ⟨rfl, rfl⟩ := Prod.mk.inj h
    exact Or.inl ⟨fun path hne => removePending_eq hremove hne, _, rfl⟩
  · obtain ⟨rfl, rfl⟩ := Prod.mk.inj h
    exact Or.inl ⟨hleave _ _, _, rfl⟩
  · obtain ⟨rfl, rfl⟩ := Prod.mk.inj h
    exact Or.inl ⟨hleave _ _, _, rfl⟩
  · obtain ⟨rfl, rfl⟩ := Prod.mk.inj h
    exact Or.inl ⟨hleave _ _, _, rfl⟩
  · obtain ⟨rfl, rfl⟩ := Prod.mk.inj h
    exact Or.inr ⟨hplaced, Function.update_self .., Nat.not_lt.1 hlength⟩
  · obtain ⟨rfl, rfl⟩ := Prod.mk.inj h
    exact Or.inr ⟨hplaced, Function.update_self .., Nat.not_lt.1 hlength⟩

theorem read_eq_none (h : read d name = .ok none) : d [name] = none := by
  rw [read.eq_def] at h
  split at h
  · assumption
  · split at h <;> cases h
  · cases h

theorem read_marker (h : d [name] = some (.regular text 1)) (hne : text ≠ [])
    (hlength : text.length ≤ 8192) : read d name = .ok (some text) := by
  rw [read, h]
  dsimp only
  rw [if_pos ⟨rfl, List.length_pos_iff.2 hne, hlength⟩]

theorem completedStage_eq_none (h : completedStage d identity stage true = .ok none) :
    validKey stage = true ∧ d [stageName stage] = none := by
  rw [completedStage] at h
  split at h
  · cases h
  rename_i hkey
  rw [Bool.not_eq_false] at hkey
  refine ⟨hkey, ?_⟩
  split at h
  · cases h
  · rename_i hread
    exact read_eq_none hread
  · split at h
    · cases h
    split at h
    · cases h
    split at h
    · cases h
    split at h
    · split at h
      · cases h
      · split at h <;> cases h
    · cases h

theorem sha256File_eq_ok {file : List Bytes} {digest : Bytes}
    (h : sha256File d file = .ok digest) :
    ∃ content links, d file = some (.regular content links) ∧ fileDigest content = some digest := by
  rw [sha256File.eq_def] at h
  split at h
  · rename_i content links hfile
    split at h
    · rename_i digest' hdigest
      obtain rfl := Except.ok.inj h
      exact ⟨content, links, hfile, hdigest⟩
    · cases h
  · cases h

/-- A commit changes nothing, or it publishes the marker of a stage that has none. -/
theorem commit_cases {result : Except String Unit}
    (h : commit d identity stage relative fault = (result, d')) :
    d' = d ∨ (validKey stage = true ∧ d [stageName stage] = none ∧
      ∃ digest, fileDigest (contentAt d relative) = some digest ∧
        publish d (stageName stage) (stageText identity stage relative digest) fault =
          (result, d')) := by
  rw [commit] at h
  split at h
  · exact Or.inl (Prod.mk.inj h).2.symm
  split at h
  · exact Or.inl (Prod.mk.inj h).2.symm
  rename_i file hfile
  split at h
  · exact Or.inl (Prod.mk.inj h).2.symm
  · split at h <;> exact Or.inl (Prod.mk.inj h).2.symm
  rename_i hnone
  split at h
  · exact Or.inl (Prod.mk.inj h).2.symm
  rename_i digest hdigest
  split at h
  · exact Or.inl (Prod.mk.inj h).2.symm
  obtain ⟨hkey, habsent⟩ := completedStage_eq_none hnone
  obtain ⟨content, links, hcontent, hhash⟩ := sha256File_eq_ok hdigest
  refine Or.inr ⟨hkey, habsent, digest, ?_, h⟩
  rw [contentAt, hfile]
  dsimp only
  rw [hcontent]
  exact hhash

theorem read_eq_some (h : read d name = .ok (some text)) :
    d [name] = some (.regular text 1) := by
  rw [read.eq_def] at h
  split at h
  · cases h
  · rename_i content links hname
    split at h
    · rename_i hsmall
      obtain rfl := Option.some.inj (Except.ok.inj h)
      rw [hname, hsmall.1]
    · cases h
  · cases h

/-- Opening changes nothing, or it publishes the identity of a directory that has none. -/
theorem openArtifacts_cases {result : Except String Bytes}
    (h : openArtifacts d identity compatible fault = (result, d')) :
    (d' = d ∧ ∀ identity', result = .ok identity' → validDigest identity' = true ∧
        d [identityName] = some (.regular (identityText identity') 1)) ∨
      (validDigest identity = true ∧ d [identityName] = none ∧
        ∃ outcome, publish d identityName (identityText identity) fault = (outcome, d') ∧
          result = outcome.map fun _ => identity) := by
  rw [openArtifacts] at h
  split at h
  · obtain ⟨rfl, rfl⟩ := Prod.mk.inj h
    exact Or.inl ⟨rfl, fun _ hok => by cases hok⟩
  rename_i hvalid
  rw [Bool.not_eq_false] at hvalid
  split at h
  · obtain ⟨rfl, rfl⟩ := Prod.mk.inj h
    exact Or.inl ⟨rfl, fun _ hok => by cases hok⟩
  split at h
  · obtain ⟨rfl, rfl⟩ := Prod.mk.inj h
    exact Or.inl ⟨rfl, fun _ hok => by cases hok⟩
  rename_i hcompatible
  split at h
  · obtain ⟨rfl, rfl⟩ := Prod.mk.inj h
    exact Or.inl ⟨rfl, fun _ hok => by cases hok⟩
  · rename_i saved hread
    have hmarker := read_eq_some hread
    split at h
    · rename_i hsaved
      obtain ⟨rfl, rfl⟩ := Prod.mk.inj h
      refine Or.inl ⟨rfl, fun identity' hok => ?_⟩
      obtain rfl := Except.ok.inj hok
      exact ⟨hvalid, hsaved ▸ hmarker⟩
    split at h
    · rename_i digest hfind
      obtain ⟨rfl, rfl⟩ := Prod.mk.inj h
      refine Or.inl ⟨rfl, fun identity' hok => ?_⟩
      obtain rfl := Except.ok.inj hok
      have hsaved : saved = identityText digest := by simpa using List.find?_some hfind
      refine ⟨?_, hsaved ▸ hmarker⟩
      by_contra hinvalid
      refine hcompatible (List.any_eq_true.2 ⟨digest, List.mem_of_find?_eq_some hfind, ?_⟩)
      rw [Bool.not_eq_true] at hinvalid
      rw [hinvalid]
      rfl
    · obtain ⟨rfl, rfl⟩ := Prod.mk.inj h
      exact Or.inl ⟨rfl, fun _ hok => by cases hok⟩
  · rename_i hread
    refine Or.inr ⟨hvalid, read_eq_none hread, ?_⟩
    split at h
    · rename_i d₁ hpublish
      obtain ⟨rfl, rfl⟩ := Prod.mk.inj h
      exact ⟨_, hpublish, rfl⟩
    · rename_i e d₁ hpublish
      obtain ⟨rfl, rfl⟩ := Prod.mk.inj h
      exact ⟨_, hpublish, rfl⟩

/-- Publishing a result touches no marker. -/
theorem publishResult_marker {relative marker : Bytes} {result : Except String Unit}
    (h : publishResult d relative fault = (result, d')) (hmarker : IsMarker marker) :
    d' [marker] = d [marker] := by
  have hpending : [marker] ≠ [bytes "result.wav.pending"] := fun hname =>
    @result_ne (bytes "result.wav.pending") marker hmarker rfl (List.cons.inj hname).1.symm
  have hresult : [marker] ≠ [bytes "result.wav"] := fun hname =>
    @result_ne (bytes "result.wav") marker hmarker rfl (List.cons.inj hname).1.symm
  rw [publishResult] at h
  split at h
  · rw [(Prod.mk.inj h).2]
  split at h
  · rw [(Prod.mk.inj h).2]
  rename_i d₁ hremove
  have hsame := removePending_eq hremove hpending
  have hleave : ∀ content, leave d₁ [bytes "result.wav.pending"] content true [marker] =
      d [marker] := fun content => by
    rw [leave, Function.update_of_ne hpending, hsame]
  have hplaced : ∀ node, Function.update d₁ [bytes "result.wav"] node [marker] = d [marker] :=
    fun node => by rw [Function.update_of_ne hresult, hsame]
  split at h
  · split at h
    · rw [← (Prod.mk.inj h).2, hsame]
    · rw [← (Prod.mk.inj h).2, hsame]
    · rw [← (Prod.mk.inj h).2, hleave]
    · rw [← (Prod.mk.inj h).2, hleave]
    · rw [← (Prod.mk.inj h).2, hleave]
    · split at h
      · rw [← (Prod.mk.inj h).2, hleave]
      · rw [← (Prod.mk.inj h).2, hplaced]
    · split at h
      · rw [← (Prod.mk.inj h).2, hleave]
      · rw [← (Prod.mk.inj h).2, hplaced]
  · rw [← (Prod.mk.inj h).2, hsame]

/-! ### The invariant -/

/-- The marker of a commit. -/
def Commit.Marks (c : Commit) (d : Directory) : Prop :=
  ∃ digest, fileDigest c.content = some digest ∧
    d [stageName c.stage] = some (.regular (stageText c.identity c.stage c.relative digest) 1) ∧
    (stageText c.identity c.stage c.relative digest).length ≤ 8192

/-- What holds of every work directory: the open object has the identity of the directory, and the
stage markers are those of the commits. -/
structure Sound (w : World) : Prop where
  session : ∀ identity, w.session = some identity → validDigest identity = true ∧
    w.dir [identityName] = some (.regular (identityText identity) 1)
  logged : ∀ c ∈ w.log, validKey c.stage = true ∧ validDigest c.identity = true ∧
    w.dir [identityName] = some (.regular (identityText c.identity) 1) ∧ c.Marks w.dir
  marked : ∀ stage, validKey stage = true → w.dir [stageName stage] ≠ none →
    ∃ c ∈ w.log, c.stage = stage

theorem Fresh.sound {w : World} (h : Fresh w) : Sound w where
  session identity hsession := by
    rw [h.session] at hsession
    cases hsession
  logged c hc := by
    rw [h.log] at hc
    exact absurd hc List.not_mem_nil
  marked stage hstage hne := absurd (h.markers _ (Or.inr ⟨stage, hstage, rfl⟩)) hne

/-- What only touches other files keeps the invariant. -/
theorem Sound.of_markers {w : World} (hs : Sound w)
    (h : ∀ name, IsMarker name → d [name] = w.dir [name]) : Sound { w with dir := d } where
  session identity hsession := by
    rw [show ({ w with dir := d } : World).dir [identityName] = w.dir [identityName] from
      h _ (Or.inl rfl)]
    exact hs.session identity hsession
  logged c hc := by
    obtain ⟨hkey, hvalid, hidentity, digest, hdigest, hmarker, hlength⟩ := hs.logged c hc
    refine ⟨hkey, hvalid, (h _ (Or.inl rfl)).trans hidentity, digest, hdigest, ?_, hlength⟩
    exact (h _ (Or.inr ⟨c.stage, hkey, rfl⟩)).trans hmarker
  marked stage hstage hne := by
    rw [show ({ w with dir := d } : World).dir [stageName stage] = w.dir [stageName stage] from
      h _ (Or.inr ⟨stage, hstage, rfl⟩)] at hne
    exact hs.marked stage hstage hne

theorem Sound.dropped {w : World} (hs : Sound w) : Sound { w with session := none } where
  session identity hsession := by cases hsession
  logged := hs.logged
  marked := hs.marked

theorem marker_ne_pending {marker : Bytes} (h : IsMarker marker) : [marker] ≠ [pendingName name] :=
  fun hname => pendingName_ne h (List.cons.inj hname).1.symm

/-- Opening keeps the invariant. -/
theorem Sound.opened {w : World} (hs : Sound w) {result : Except String Bytes}
    (h : openArtifacts w.dir identity compatible fault = (result, d)) :
    Sound { w with dir := d, session := result.toOption } := by
  have hresult : ∀ {identity'}, result.toOption = some identity' → result = .ok identity' := by
    intro identity' hsome
    cases result with
    | error e => cases hsome
    | ok identity => rw [Option.some.inj hsome]
  rcases openArtifacts_cases h with ⟨rfl, hok⟩ | ⟨hvalid, hnone, outcome, hpublish, hmap⟩
  · exact ⟨fun identity' hsession => hok identity' (hresult hsession), hs.logged, hs.marked⟩
  have hlog : ∀ c, c ∉ w.log := by
    intro c hc
    have hidentity := (hs.logged c hc).2.2.1
    rw [hnone] at hidentity
    cases hidentity
  rcases publish_cases hpublish with ⟨hsame, e, rfl⟩ | ⟨hsame, hplaced, -⟩
  · refine ⟨fun identity' hsession => ?_, fun c hc => absurd hc (hlog c),
      fun stage hstage hne => ?_⟩
    · rw [hmap] at hsession
      cases hsession
    · have hmarker := hsame [stageName stage] (marker_ne_pending (Or.inr ⟨stage, hstage, rfl⟩))
      dsimp only at hne
      rw [hmarker] at hne
      exact hs.marked stage hstage hne
  · refine ⟨fun identity' hsession => ?_, fun c hc => absurd hc (hlog c),
      fun stage hstage hne => ?_⟩
    · have hidentity := hresult hsession
      rw [hmap] at hidentity
      cases outcome with
      | error e => cases hidentity
      | ok =>
        obtain rfl := Except.ok.inj hidentity
        exact ⟨hvalid, hplaced⟩
    · have hmarker := hsame [stageName stage] (marker_ne_pending (Or.inr ⟨stage, hstage, rfl⟩))
        (fun hname => stageName_ne_identityName stage (List.cons.inj hname).1)
      dsimp only at hne
      rw [hmarker] at hne
      exact hs.marked stage hstage hne

/-- A commit keeps the invariant. -/
theorem Sound.committed {w : World} (hs : Sound w) {relative : Bytes}
    {result : Except String Unit} (hsession : w.session = some identity)
    (h : commit w.dir identity stage relative fault = (result, d)) :
    Sound { w with
      dir := d
      log :=
        if d [stageName stage] = w.dir [stageName stage] then w.log
        else ⟨identity, stage, relative, contentAt w.dir relative⟩ :: w.log } := by
  rcases commit_cases h with rfl | ⟨hkey, hnone, digest, hdigest, hpublish⟩
  · rw [if_pos rfl]
    exact ⟨hs.session, hs.logged, hs.marked⟩
  have hstage : IsMarker (stageName stage) := Or.inr ⟨stage, hkey, rfl⟩
  rcases publish_cases hpublish with ⟨hsame, -⟩ | ⟨hsame, hplaced, hlength⟩
  · rw [if_pos (hsame _ (marker_ne_pending hstage))]
    exact hs.of_markers fun name hname => hsame _ (marker_ne_pending hname)
  have hothers : ∀ name, IsMarker name → name ≠ stageName stage → d [name] = w.dir [name] :=
    fun name hname hne => hsame _ (marker_ne_pending hname) fun heq => hne (List.cons.inj heq).1
  have hidentity : d [identityName] = w.dir [identityName] :=
    hothers _ (Or.inl rfl) (stageName_ne_identityName stage).symm
  rw [if_neg]
  · obtain ⟨hvalid, hmarked⟩ := hs.session identity hsession
    refine ⟨fun identity' hsession' => ?_, fun c hc => ?_, fun stage' hstage' hne => ?_⟩
    · dsimp only
      rw [hidentity]
      exact hs.session identity' hsession'
    · rcases List.mem_cons.1 hc with rfl | hc
      · exact ⟨hkey, hvalid, hidentity.trans hmarked, digest, hdigest, hplaced, hlength⟩
      · obtain ⟨hkey', hvalid', hidentity', digest', hdigest', hmarker', hlength'⟩ :=
          hs.logged c hc
        refine ⟨hkey', hvalid', hidentity.trans hidentity', digest', hdigest', ?_, hlength'⟩
        refine (hothers _ (Or.inr ⟨c.stage, hkey', rfl⟩) fun hname => ?_).trans hmarker'
        rw [hname, hnone] at hmarker'
        cases hmarker'
    · by_cases hsame' : stage' = stage
      · exact ⟨_, List.mem_cons_self, hsame'.symm⟩
      · dsimp only at hne
        rw [hothers _ (Or.inr ⟨stage', hstage', rfl⟩) fun hname =>
          hsame' (stageName_injective hname)] at hne
        obtain ⟨c, hc, hcstage⟩ := hs.marked stage' hstage' hne
        exact ⟨c, List.mem_cons_of_mem _ hc, hcstage⟩
  · rw [hplaced, hnone]
    simp

/-- **The invariant is kept**, whatever fails or crashes. -/
theorem Step.sound {w w' : World} {e : Unit} (h : Step w e w') (hs : Sound w) : Sound w' := by
  cases h with
  | opened h => exact hs.opened h
  | committed hsession h => exact hs.committed hsession h
  | resulted h => exact hs.of_markers fun name hname => publishResult_marker h hname
  | dropped => exact hs.dropped
  | changed h => exact hs.of_markers h

theorem Fresh.reach {w w' : World} (h : Fresh w) (hrun : Run w w') : Sound w' :=
  hrun.invariant (fun _ _ _ _ hs hstep => hstep.sound hs) h.sound

/-! ### Completed stages -/

theorem hexDigit_mem {n : ℕ} (h : n < 16) :
    Core.Sha256.hexDigit n ∈ bytes "0123456789abcdef" := by
  have hall : ∀ n < 16, Core.Sha256.hexDigit n ∈ bytes "0123456789abcdef" := by decide
  exact hall n h

/-- Digests of files are digests. -/
theorem validDigest_fileDigest {content digest : Bytes} (h : fileDigest content = some digest) :
    validDigest digest = true := by
  rw [fileDigest] at h
  split at h
  · obtain rfl := Option.some.inj h
    rw [validDigest, Bool.and_eq_true, decide_eq_true_eq, List.all_eq_true]
    constructor
    · rw [Core.Sha256.hexText, List.length_flatMap]
      simp [Core.Sha256.hexByte, SecureHash.length_sha256]
    · intro c hc
      obtain ⟨b, -, hb⟩ := List.mem_flatMap.1 hc
      have hlt : b.toNat < 256 := b.toNat_lt
      rw [Core.Sha256.hexByte, List.mem_cons, List.mem_singleton] at hb
      rw [List.contains_iff_mem]
      rcases hb with rfl | rfl
      · exact hexDigit_mem (by omega)
      · exact hexDigit_mem (by omega)
  · cases h

/-- The file of a stage, checked against the digest of its marker. -/
def checked (d : Directory) (relative digest : Bytes) : Except String (Option (List Bytes)) :=
  match artifact d relative with
  | .error e => .error e
  | .ok file =>
    match sha256File d file with
    | .error e => .error e
    | .ok hash =>
      if hash = digest then .ok (some file)
      else .error "completed stage artifact checksum mismatch"

/-- A marked stage is looked up by the check of its file. -/
theorem completedStage_marked {identity stage relative digest : Bytes}
    (hidentity : validDigest identity = true) (hkey : validKey stage = true)
    (hdigest : validDigest digest = true)
    (hmarked : d [stageName stage] =
      some (.regular (stageText identity stage relative digest) 1))
    (hlength : (stageText identity stage relative digest).length ≤ 8192) :
    completedStage d identity stage true = checked d relative digest := by
  have hne : stageText identity stage relative digest ≠ [] := by
    simp [stageText]
  rw [completedStage, if_neg (by simp [hkey]), read_marker hmarked hne hlength]
  dsimp only
  rw [parseMarker_stageText relative hidentity hkey hdigest]
  dsimp only
  rw [if_neg (not_not.2 ⟨by decide, rfl, rfl, rfl, hdigest⟩), checked]
  rfl

/-- A lookup of the open object, by the commits. -/
theorem Sound.completedStage_eq {w : World} (hs : Sound w) (hsession : w.session = some identity)
    (hkey : validKey stage = true) :
    (completedStage w.dir identity stage true = .ok none ∧ ∀ c ∈ w.log, c.stage ≠ stage) ∨
      ∃ c ∈ w.log, c.identity = identity ∧ c.stage = stage ∧ ∃ digest,
        fileDigest c.content = some digest ∧
        completedStage w.dir identity stage true = checked w.dir c.relative digest := by
  by_cases hmarker : w.dir [stageName stage] = none
  · refine Or.inl ⟨?_, fun c hc hstage => ?_⟩
    · rw [completedStage, if_neg (by simp [hkey]), read, hmarker]
    · obtain ⟨-, -, -, digest, -, hmarked, -⟩ := hs.logged c hc
      rw [hstage, hmarker] at hmarked
      cases hmarked
  · obtain ⟨c, hc, rfl⟩ := hs.marked stage hkey hmarker
    obtain ⟨-, hvalid, hidentity, digest, hdigest, hmarked, hlength⟩ := hs.logged c hc
    have hsame : c.identity = identity := by
      have hopen := (hs.session identity hsession).2
      rw [hidentity] at hopen
      exact identityText_injective (Node.regular.inj (Option.some.inj hopen)).1
    refine Or.inr ⟨c, hc, hsame, rfl, digest, hdigest, ?_⟩
    have hhash := validDigest_fileDigest hdigest
    rw [← hsame]
    exact completedStage_marked hvalid hkey hhash hmarked hlength

/-- A lookup that finds the file of a stage. -/
theorem Sound.completed_spec {w : World} {file : List Bytes} (hs : Sound w)
    (hsession : w.session = some identity)
    (h : completedStage w.dir identity stage true = .ok (some file)) :
    w.dir [identityName] = some (.regular (identityText identity) 1) ∧
      ∃ c ∈ w.log, c.identity = identity ∧ c.stage = stage ∧ artifact w.dir c.relative = .ok file ∧
        ∃ content links, w.dir file = some (.regular content links) ∧
          fileDigest content = fileDigest c.content := by
  have hkey : validKey stage = true := by
    by_contra hkey
    rw [completedStage, if_pos (by simpa using hkey)] at h
    cases h
  refine ⟨(hs.session identity hsession).2, ?_⟩
  rcases hs.completedStage_eq hsession hkey with
    ⟨hnone, -⟩ | ⟨c, hc, hid, hstage, digest, hdigest, hchecked⟩
  · rw [hnone] at h
    cases h
  rw [h, checked] at hchecked
  split at hchecked
  · cases hchecked
  rename_i found hartifact
  split at hchecked
  · cases hchecked
  rename_i hash hhash
  split at hchecked
  · rename_i hsame
    obtain rfl := Option.some.inj (Except.ok.inj hchecked)
    obtain ⟨content, links, hfile, hcontent⟩ := sha256File_eq_ok hhash
    exact ⟨c, hc, hid, hstage, hartifact, content, links, hfile, by rw [hcontent, hdigest, hsame]⟩
  · cases hchecked

/-- A work directory with one output. -/
def outputDirectory : Directory :=
  fun path => if path = [bytes "out.wav"] then some (.regular [1, 2, 3] 1) else none

def zeroIdentity : Bytes := List.replicate 64 48

/-- The digest of the output. -/
@[irreducible] def outputDigest : Bytes := Core.Sha256.hexText (SecureHash.sha256 [1, 2, 3])

def cleanupText : Bytes := stageText zeroIdentity (bytes "cleanup") (bytes "out.wav") outputDigest

def openedDirectory : Directory :=
  Function.update outputDirectory [identityName] (some (.regular (identityText zeroIdentity) 1))

def committedDirectory : Directory :=
  Function.update openedDirectory [stageName (bytes "cleanup")] (some (.regular cleanupText 1))

theorem validDigest_zeroIdentity : validDigest zeroIdentity = true := by decide

theorem validKey_cleanup : validKey (bytes "cleanup") = true := by decide

theorem openArtifacts_outputDirectory :
    openArtifacts outputDirectory zeroIdentity [] none = (.ok zeroIdentity, openedDirectory) := by
  have hread : read outputDirectory identityName = .ok none := by decide
  have hpending : outputDirectory [pendingName identityName] = none := by decide
  have hlength : ¬8192 < (identityText zeroIdentity).length := by decide
  have hpublish : publish outputDirectory identityName (identityText zeroIdentity) none =
      (.ok (), openedDirectory) := by
    rw [publish, if_neg hlength, removePending, hpending]
    rfl
  rw [openArtifacts, if_neg (by simp [validDigest_zeroIdentity]), if_neg (by decide),
    if_neg (by decide), hread]
  dsimp only
  rw [hpublish]

theorem fileDigest_output : fileDigest [1, 2, 3] = some outputDigest := by
  rw [fileDigest, outputDigest]
  exact if_pos (by decide)

theorem length_outputDigest : outputDigest.length = 64 := by
  have hvalid := validDigest_fileDigest fileDigest_output
  rw [validDigest, Bool.and_eq_true, decide_eq_true_eq] at hvalid
  exact hvalid.1

theorem length_cleanupText : cleanupText.length ≤ 8192 := by
  rw [cleanupText, stageText, List.length_append, List.length_append, length_outputDigest]
  decide

theorem sha256File_output {d : Directory}
    (hfile : d [bytes "out.wav"] = some (.regular [1, 2, 3] 1)) :
    sha256File d [bytes "out.wav"] = .ok outputDigest := by
  rw [sha256File, hfile]
  dsimp only
  rw [fileDigest_output]

theorem commit_openedDirectory :
    commit openedDirectory zeroIdentity (bytes "cleanup") (bytes "out.wav") none =
      (.ok (), committedDirectory) := by
  have hartifact : artifact openedDirectory (bytes "out.wav") = .ok [bytes "out.wav"] := by
    decide
  have hnone : completedStage openedDirectory zeroIdentity (bytes "cleanup") true = .ok none := by
    decide
  have hhash : sha256File openedDirectory [bytes "out.wav"] = .ok outputDigest :=
    sha256File_output (by decide)
  have hpending : openedDirectory [pendingName (stageName (bytes "cleanup"))] = none := by
    decide
  have hpublish : publish openedDirectory (stageName (bytes "cleanup")) cleanupText none =
      (.ok (), committedDirectory) := by
    rw [publish, if_neg (Nat.not_lt.2 length_cleanupText), removePending, hpending]
    rfl
  have hfault : ¬(none : Option PublishFault) = some .sync := by decide
  rw [commit, validKey_cleanup, if_neg Bool.true_eq_false.mp, hartifact]
  dsimp only
  rw [hnone]
  dsimp only
  rw [hhash]
  dsimp only
  rw [if_neg hfault]
  exact hpublish

theorem completedStage_committedDirectory :
    completedStage committedDirectory zeroIdentity (bytes "cleanup") true =
      .ok (some [bytes "out.wav"]) := by
  have hartifact : artifact committedDirectory (bytes "out.wav") = .ok [bytes "out.wav"] := by
    decide
  have hhash : sha256File committedDirectory [bytes "out.wav"] = .ok outputDigest :=
    sha256File_output (by decide)
  have hmarked : committedDirectory [stageName (bytes "cleanup")] = some (.regular (stageText
      zeroIdentity (bytes "cleanup") (bytes "out.wav") outputDigest) 1) := Function.update_self ..
  rw [completedStage_marked validDigest_zeroIdentity validKey_cleanup
    (validDigest_fileDigest fileDigest_output) hmarked length_cleanupText, checked, hartifact]
  dsimp only
  rw [hhash]
  exact if_pos rfl

def freshWorld : World := { dir := outputDirectory }

def openedWorld : World := { dir := openedDirectory, session := some zeroIdentity }

/-- The stage is committed. -/
def committedWorld : World where
  dir := committedDirectory
  session := some zeroIdentity
  log := [⟨zeroIdentity, bytes "cleanup", bytes "out.wav", [1, 2, 3]⟩]

theorem fresh_freshWorld : Fresh freshWorld := by
  refine ⟨fun name hname => ?_, rfl, rfl⟩
  have hne : [name] ≠ [bytes "out.wav"] := by
    intro heq
    obtain rfl := (List.cons.inj heq).1
    rcases hname with hidentity | ⟨stage, -, hstage⟩
    · exact absurd hidentity (by decide)
    · have hhead := congrArg List.head? hstage
      rw [head?_stageName] at hhead
      exact absurd hhead (by decide)
  exact if_neg hne

theorem run_openedWorld : Run freshWorld openedWorld :=
  Reach.refl.tail (a := ()) trivial (Step.opened (w := freshWorld) openArtifacts_outputDirectory)

theorem run_committedWorld : Run openedWorld committedWorld := by
  have hstep : Step openedWorld () _ := Step.committed rfl commit_openedDirectory
  have hchanged : committedDirectory [stageName (bytes "cleanup")] ≠
      openedDirectory [stageName (bytes "cleanup")] := by
    have hnone : openedDirectory [stageName (bytes "cleanup")] = none := by decide
    rw [hnone, committedDirectory, Function.update_self]
    simp
  have hcontent : contentAt openedDirectory (bytes "out.wav") = [1, 2, 3] := by decide
  have hworld : committedWorld = { openedWorld with
      dir := committedDirectory
      log :=
        if committedDirectory [stageName (bytes "cleanup")] =
            openedDirectory [stageName (bytes "cleanup")] then []
        else ⟨zeroIdentity, bytes "cleanup", bytes "out.wav",
          contentAt openedDirectory (bytes "out.wav")⟩ :: [] } := by
    rw [if_neg hchanged, hcontent]
    rfl
  rw [hworld]
  exact Reach.refl.tail (a := ()) trivial hstep

/-- **A completed stage was committed.** In every run from a directory without markers, with
failures, crashes and changes by others, a lookup returns a file only for a stage that was committed
under the identity of the directory; the file is the one that was committed, and its content has the
digest of the content that it had then. -/
theorem completed_of_run {w₀ w : World} {file : List Bytes} (hfresh : Fresh w₀) (hrun : Run w₀ w)
    (hsession : w.session = some identity)
    (h : completedStage w.dir identity stage true = .ok (some file)) :
    w.dir [identityName] = some (.regular (identityText identity) 1) ∧
      ∃ c ∈ w.log, c.identity = identity ∧ c.stage = stage ∧ artifact w.dir c.relative = .ok file ∧
        ∃ content links, w.dir file = some (.regular content links) ∧
          fileDigest content = fileDigest c.content :=
  (hfresh.reach hrun).completed_spec hsession h

theorem completed_of_run_cleanup :
    ∃ c ∈ committedWorld.log, c.identity = zeroIdentity ∧ c.stage = bytes "cleanup" := by
  obtain ⟨-, c, hc, hid, hstage, -⟩ := completed_of_run fresh_freshWorld
    (run_openedWorld.trans run_committedWorld) rfl completedStage_committedDirectory
  exact ⟨c, hc, hid, hstage⟩

/-- **Crashes leave no broken marker.** At every point of a run a stage is either not completed, and
then it was not committed, or it is completely committed: the lookup is the check of the committed
file, and the marker itself is never malformed and never of another identity. -/
theorem completedStage_of_run {w₀ w : World} (hfresh : Fresh w₀) (hrun : Run w₀ w)
    (hsession : w.session = some identity) (hkey : validKey stage = true) :
    (completedStage w.dir identity stage true = .ok none ∧ ∀ c ∈ w.log, c.stage ≠ stage) ∨
      ∃ c ∈ w.log, c.identity = identity ∧ c.stage = stage ∧ ∃ digest,
        fileDigest c.content = some digest ∧
        completedStage w.dir identity stage true = checked w.dir c.relative digest :=
  (hfresh.reach hrun).completedStage_eq hsession hkey

theorem completedStage_of_run_opened :
    completedStage openedWorld.dir zeroIdentity (bytes "cleanup") true = .ok none := by
  rcases completedStage_of_run fresh_freshWorld run_openedWorld rfl validKey_cleanup with
    ⟨hnone, -⟩ | ⟨c, hc, -⟩
  · exact hnone
  · exact absurd hc List.not_mem_nil

/-! ### No stage is committed twice -/

/-- The commits have different stages. -/
def Distinct (log : List Commit) : Prop := (log.map Commit.stage).Nodup

theorem Step.distinct {w w' : World} {e : Unit} (h : Step w e w') (hs : Sound w)
    (hd : Distinct w.log) : Distinct w'.log := by
  cases h with
  | opened | resulted | dropped | changed => exact hd
  | @committed d identity stage relative fault result hsession h =>
    dsimp only
    split_ifs with hsame
    · exact hd
    · refine List.nodup_cons.2 ⟨fun hmem => ?_, hd⟩
      obtain ⟨c, hc, hstage⟩ := List.mem_map.1 hmem
      dsimp only at hstage
      obtain ⟨-, -, -, digest, -, hmarked, -⟩ := hs.logged c hc
      rcases commit_cases h with rfl | ⟨-, hnone, -⟩
      · exact hsame rfl
      · rw [hstage, hnone] at hmarked
        cases hmarked

theorem Step.log_subset {w w' : World} {e : Unit} (h : Step w e w') : w.log ⊆ w'.log := by
  cases h with
  | opened | resulted | dropped | changed => exact List.Subset.refl _
  | committed hsession h =>
    dsimp only
    split_ifs
    · exact List.Subset.refl _
    · exact List.subset_cons_self _ _

theorem Distinct.eq {log : List Commit} (h : Distinct log) {c c' : Commit} (hc : c ∈ log)
    (hc' : c' ∈ log) (hstage : c.stage = c'.stage) : c = c' :=
  List.inj_on_of_nodup_map h hc hc' hstage

/-- The file of a commit is given by its path. -/
theorem walk_eq {parts result file : List Bytes} (h : walk d result parts = .ok file) :
    file = result ++ parts := by
  induction parts generalizing result with
  | nil =>
    rw [walk] at h
    split at h
    · rw [← Except.ok.inj h, List.append_nil]
    · cases h
  | cons part parts ih =>
    rw [walk] at h
    split at h
    · cases h
    split at h
    · cases h
    · rw [ih h, List.append_assoc, List.singleton_append]

theorem artifact_eq {relative : Bytes} {file : List Bytes} (h : artifact d relative = .ok file) :
    file = components relative := by
  rw [artifact] at h
  split at h
  · cases h
  · rw [walk_eq h, List.nil_append]

/-- **A stage is completed once.** Whenever a stage is found completed, and again at any later point
of the run, by an object with the identity of the directory, it is the same file with a content of
the same digest: a commit is never replaced by another one. -/
theorem completed_unique {w₀ w w' : World} {file file' : List Bytes} (hfresh : Fresh w₀)
    (hrun : Run w₀ w) (hsession : w.session = some identity)
    (h : completedStage w.dir identity stage true = .ok (some file)) (hlater : Run w w')
    (hsession' : w'.session = some identity')
    (h' : completedStage w'.dir identity' stage true = .ok (some file')) :
    identity' = identity ∧ file' = file ∧ ∃ content links content' links',
      w.dir file = some (.regular content links) ∧ w'.dir file' = some (.regular content' links') ∧
      fileDigest content' = fileDigest content := by
  have hs := hfresh.reach hrun
  have hs' : Sound w' := hlater.invariant (fun _ _ _ _ hs hstep => hstep.sound hs) hs
  have hdistinct : Distinct w'.log := by
    have hempty : Distinct w₀.log := by
      rw [Distinct, hfresh.log]
      exact List.nodup_nil
    exact (hrun.trans hlater).stable (I := Sound) (P := fun w => Distinct w.log)
      (fun _ _ _ _ hs hstep => hstep.sound hs) (fun _ _ _ _ hs hd hstep => hstep.distinct hs hd)
      hfresh.sound hempty
  have hsubset : w.log ⊆ w'.log := hlater.invariant (P := fun w' => w.log ⊆ w'.log)
    (fun _ _ _ _ hsub hstep => List.Subset.trans hsub hstep.log_subset) (List.Subset.refl _)
  obtain ⟨-, c, hc, hid, hstage, hartifact, content, links, hfile, hdigest⟩ :=
    hs.completed_spec hsession h
  obtain ⟨-, c', hc', hid', hstage', hartifact', content', links', hfile', hdigest'⟩ :=
    hs'.completed_spec hsession' h'
  obtain rfl : c = c' := hdistinct.eq (hsubset hc) hc' (hstage.trans hstage'.symm)
  refine ⟨hid'.symm.trans hid, (artifact_eq hartifact').trans (artifact_eq hartifact).symm, content,
    links, content', links', hfile, hfile', hdigest'.trans hdigest.symm⟩

theorem completed_unique_cleanup :
    ∃ content links, committedWorld.dir [bytes "out.wav"] = some (.regular content links) := by
  obtain ⟨-, -, content, links, -, -, hfile, -⟩ := completed_unique fresh_freshWorld
    (run_openedWorld.trans run_committedWorld) rfl completedStage_committedDirectory
    Reach.refl rfl completedStage_committedDirectory
  exact ⟨content, links, hfile⟩

/-! ### The identity of a directory -/

/-- The identity marker stays, or a valid one is published where there was none. -/
theorem Step.identity_cases {w w' : World} {e : Unit} (h : Step w e w') :
    w'.dir [identityName] = w.dir [identityName] ∨
      w.dir [identityName] = none ∧ ∃ identity, validDigest identity = true ∧
        w'.dir [identityName] = some (.regular (identityText identity) 1) := by
  have hmarker : IsMarker identityName := Or.inl rfl
  cases h with
  | opened h =>
    rcases openArtifacts_cases h with ⟨rfl, -⟩ | ⟨hvalid, hnone, outcome, hpublish, -⟩
    · exact Or.inl rfl
    rcases publish_cases hpublish with ⟨hsame, -⟩ | ⟨-, hplaced, -⟩
    · exact Or.inl (hsame _ (marker_ne_pending hmarker))
    · exact Or.inr ⟨hnone, _, hvalid, hplaced⟩
  | @committed d identity stage relative fault result hsession h =>
    rcases commit_cases h with rfl | ⟨-, -, digest, -, hpublish⟩
    · exact Or.inl rfl
    rcases publish_cases hpublish with ⟨hsame, -⟩ | ⟨hsame, -⟩
    · exact Or.inl (hsame _ (marker_ne_pending hmarker))
    · exact Or.inl (hsame _ (marker_ne_pending hmarker) fun hname =>
        stageName_ne_identityName stage (List.cons.inj hname).1.symm)
  | resulted h => exact Or.inl (publishResult_marker h hmarker)
  | dropped => exact Or.inl rfl
  | changed h => exact Or.inl (h _ hmarker)

/-- The identity marker stays. -/
theorem Step.keepsIdentity {w w' : World} {e : Unit} (h : Step w e w')
    (hmarker : w.dir [identityName] = some (.regular (identityText identity) 1)) :
    w'.dir [identityName] = some (.regular (identityText identity) 1) := by
  rcases h.identity_cases with hsame | ⟨hnone, -⟩
  · exact hsame.trans hmarker
  · rw [hnone] at hmarker
    cases hmarker

/-- The directory has no identity, or a valid one. -/
def Identified (d : Directory) : Prop :=
  d [identityName] = none ∨ ∃ identity, validDigest identity = true ∧
    d [identityName] = some (.regular (identityText identity) 1)

theorem Step.identified {w w' : World} {e : Unit} (h : Step w e w') (hi : Identified w.dir) :
    Identified w'.dir := by
  rcases h.identity_cases with hsame | ⟨-, hplaced⟩
  · rw [Identified, hsame]
    exact hi
  · exact Or.inr hplaced

/-- A saved identity is read. -/
theorem read_identityText (hvalid : validDigest identity = true)
    (hmarker : d [identityName] = some (.regular (identityText identity) 1)) :
    read d identityName = .ok (some (identityText identity)) := by
  rw [validDigest, Bool.and_eq_true, decide_eq_true_eq] at hvalid
  refine read_marker hmarker (by simp [identityText]) ?_
  rw [identityText, List.length_append, List.length_append, hvalid.1]
  decide

/-- The saved identity is the one of the lookup. -/
theorem retainedOutput_eq (hvalid : validDigest identity = true)
    (hmarker : d [identityName] = some (.regular (identityText identity) 1)) (stage : Bytes)
    (verifyChecksum : Bool) :
    retainedOutput d stage verifyChecksum = completedStage d identity stage verifyChecksum := by
  obtain ⟨hne, hspace⟩ := token_of_validDigest hvalid
  have htext : identityText identity =
      bytes "RESONANTIA_WORKFLOW 1" ++ 10 :: (identity ++ [10]) := by
    simp [identityText, bytes, byte]
  have hline := @span_line (bytes "RESONANTIA_WORKFLOW 1") (identity ++ [10]) (by decide)
  have htoken : readToken (identity ++ [10]) = some (identity, [10]) :=
    readToken_append hne hspace (follow_cons (by decide) [])
  rw [retainedOutput, read_identityText hvalid hmarker]
  dsimp only
  rw [htext, hline, List.tail_cons, htoken]
  dsimp only
  rw [if_pos ⟨by decide, rfl, hvalid⟩]

/-- **A directory keeps its identity.** Once an object was open, at every later point of the run a
valid identity is accepted exactly when it is the one of the directory, or the one of the directory
is among its compatible ones; the object then has the identity of the directory, and opening changes
nothing in either case. -/
theorem openArtifacts_of_run {w₀ w w' : World} (hfresh : Fresh w₀) (hrun : Run w₀ w)
    (hsession : w.session = some identity) (hlater : Run w w')
    (hvalid : validDigest identity' = true) (hfew : compatible.length ≤ 2)
    (hcompatible : ∀ digest ∈ compatible, validDigest digest = true) :
    (openArtifacts w'.dir identity' compatible fault).2 = w'.dir ∧
      ((openArtifacts w'.dir identity' compatible fault).1.isOk = true ↔
        identity' = identity ∨ identity ∈ compatible) ∧
      ∀ opened, (openArtifacts w'.dir identity' compatible fault).1 = .ok opened →
        opened = identity := by
  obtain ⟨hdigest, hmarker⟩ := (hfresh.reach hrun).session identity hsession
  have hlast : w'.dir [identityName] = some (.regular (identityText identity) 1) :=
    hlater.invariant (P := fun w => w.dir [identityName] =
      some (.regular (identityText identity) 1)) (fun _ _ _ _ h hstep =>
      hstep.keepsIdentity h) hmarker
  have hread := read_identityText hdigest hlast
  have hall : ¬compatible.any (fun digest => !validDigest digest) = true := by
    rw [List.any_eq_true]
    rintro ⟨digest, hmem, hinvalid⟩
    rw [hcompatible digest hmem] at hinvalid
    cases hinvalid
  rw [openArtifacts, if_neg (by simp [hvalid]), if_neg (Nat.not_lt.2 hfew), if_neg hall, hread]
  dsimp only
  split_ifs with hsame
  · obtain rfl := identityText_injective hsame
    refine ⟨rfl, iff_of_true rfl (Or.inl rfl), fun opened hopened => ?_⟩
    rw [Except.ok.inj hopened]
  · have hne : identity' ≠ identity := fun heq => hsame (by rw [heq])
    split
    · rename_i digest hfind
      have hdigest' : identityText identity = identityText digest := by
        simpa using List.find?_some hfind
      obtain rfl := identityText_injective hdigest'
      refine ⟨rfl, iff_of_true rfl (Or.inr (List.mem_of_find?_eq_some hfind)),
        fun opened hopened => ?_⟩
      rw [Except.ok.inj hopened]
    · rename_i hfind
      refine ⟨rfl, iff_of_false (by simp [Except.isOk, Except.toBool]) ?_,
        fun opened hopened => by cases hopened⟩
      rintro (heq | hmem)
      · exact hne heq
      · rw [List.find?_eq_none] at hfind
        exact hfind identity hmem (decide_eq_true rfl)

theorem openArtifacts_of_run_committed :
    (openArtifacts committedWorld.dir (List.replicate 64 49) [zeroIdentity] none).1.isOk = true :=
  (openArtifacts_of_run fresh_freshWorld run_openedWorld rfl run_committedWorld
    (by decide) (by decide) (by decide)).2.1.2 (Or.inr List.mem_cons_self)

/-- **Both lookups agree.** At every point of a run, the directory has no identity, no stage was
committed, and no output is retained; or it has an identity with which it can be opened, and what is
retained of any stage is what is found after that. -/
theorem retainedOutput_of_run {w₀ w : World} (hfresh : Fresh w₀) (hrun : Run w₀ w) (stage : Bytes)
    (verifyChecksum : Bool) :
    (w.dir [identityName] = none ∧ w.log = [] ∧
        retainedOutput w.dir stage verifyChecksum = .ok none) ∨
      ∃ identity, (∀ fault, openArtifacts w.dir identity [] fault = (.ok identity, w.dir)) ∧
        retainedOutput w.dir stage verifyChecksum =
          completedStage w.dir identity stage verifyChecksum := by
  have hidentified : Identified w.dir :=
    hrun.invariant (P := fun w => Identified w.dir) (fun _ _ _ _ hi hstep => hstep.identified hi)
      (Or.inl (hfresh.markers _ (Or.inl rfl)))
  rcases hidentified with hnone | ⟨identity, hvalid, hmarker⟩
  · refine Or.inl ⟨hnone, List.eq_nil_iff_forall_not_mem.2 fun c hc => ?_, ?_⟩
    · have hidentity := ((hfresh.reach hrun).logged c hc).2.2.1
      rw [hnone] at hidentity
      cases hidentity
    · rw [retainedOutput, read, hnone]
  · refine Or.inr ⟨identity, fun fault => ?_, retainedOutput_eq hvalid hmarker stage _⟩
    rw [openArtifacts, if_neg (by simp [hvalid]), if_neg (by decide), if_neg (by decide),
      read_identityText hvalid hmarker]
    dsimp only
    rw [if_pos rfl]

theorem retainedOutput_of_run_committed :
    ∃ identity, retainedOutput committedWorld.dir (bytes "cleanup") false =
      completedStage committedWorld.dir identity (bytes "cleanup") false := by
  rcases retainedOutput_of_run fresh_freshWorld (run_openedWorld.trans run_committedWorld)
    (bytes "cleanup") false with ⟨-, hlog, -⟩ | ⟨identity, -, heq⟩
  · cases hlog
  · exact ⟨identity, heq⟩

end Resonantia.Web.TaskArtifacts
