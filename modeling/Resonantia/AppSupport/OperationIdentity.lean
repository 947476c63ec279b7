import Resonantia.Core.Sha256
import Resonantia.Io.BlockFiles
import Resonantia.Library.FieldFraming

/-!
# Identities of operations

The identity of an operation is a digest of named fields. Each name and each value is hashed after
its length, in four updates of the hash. `OperationIdentity` binds the native programs to their
executable; `WebWorkflowIdentity` binds the service to a version of its orchestration, and keeps the
hashes that two earlier producers would have had.

## Main definitions

* `AppSupport.OperationIdentity`, `AppSupport.WebWorkflowIdentity`: the hashes of the fields so far.
* `AppSupport.OperationIdentity.fed`, `AppSupport.WebWorkflowIdentity.fed`: the bytes that were
  hashed.

## Main results

* `AppSupport.finish_eq`: the digest is that of these bytes.
* `AppSupport.fed_injective`: these bytes determine all fields.
-/

namespace Resonantia.AppSupport

open ByteString FieldFraming Json
open Resonantia.Core

abbrev IdentityField := Bytes × Bytes

/-- The updates for one field, in `OperationIdentity::field` and `WebWorkflowIdentity::append`. -/
def fieldUpdates (name value : Bytes) : List Bytes :=
  [decimalText name.length ++ bytes ":", name, decimalText value.length ++ bytes ":", value]

/-- The digest after some updates; `none` where the hash refuses them. -/
def digestOf (updates : List Bytes) : Option Bytes := do
  let (texts, _) ← Sha256.run Sha256.init (updates.map .update ++ [.finish])
  texts.head?

/-! ### The identity of a native program -/

/-- `OperationIdentity`: the updates of its hash. -/
structure OperationIdentity where
  updates : List Bytes

namespace OperationIdentity

def field (identity : OperationIdentity) (name value : Bytes) : OperationIdentity :=
  ⟨identity.updates ++ fieldUpdates name value⟩

/-- The constructor for the digest of an executable. -/
def create (domain executableDigest : Bytes) : Option OperationIdentity :=
  if Io.BlockFiles.validDigest executableDigest = false then none
  else
    some ((((⟨[]⟩ : OperationIdentity).field (bytes "format") (bytes "operation-blocks-v1")).field
      (bytes "domain") domain).field (bytes "executable") executableDigest)

/-- A sequence of fields. -/
def withFields (identity : OperationIdentity) (fields : List IdentityField) : OperationIdentity :=
  fields.foldl (fun identity field => identity.field field.1 field.2) identity

/-- The bytes that were hashed. -/
def fed (identity : OperationIdentity) : Bytes := identity.updates.flatten

def finish (identity : OperationIdentity) : Option Bytes := digestOf identity.updates

end OperationIdentity

/-! ### The identity of a workflow of the service -/

def kLegacyProducers : List Bytes :=
  [bytes "91f7c8a4952e90cc4d069e7c83d4f77b6b599d63e1a20beddcd48f56b0b4a52a",
    bytes "d95014094dcdebefc688e50effefb68ac679d68a3e3d562d7743ac2027c565e4"]

/-- `WebWorkflowIdentity`: the updates of the current hash and of the hashes of earlier producers. -/
structure WebWorkflowIdentity where
  current : List Bytes
  legacy : List (List Bytes)

namespace WebWorkflowIdentity

/-- The constructor. -/
def create (domain : Bytes) : WebWorkflowIdentity where
  current :=
    fieldUpdates (bytes "format") (bytes "web-workflow-v2") ++
      fieldUpdates (bytes "domain") domain ++
      fieldUpdates (bytes "orchestration") (bytes "2026-10-29.1")
  legacy := kLegacyProducers.map fun producer =>
    fieldUpdates (bytes "format") (bytes "operation-blocks-v1") ++
      fieldUpdates (bytes "domain") domain ++ fieldUpdates (bytes "executable") producer

def field (identity : WebWorkflowIdentity) (name value : Bytes) : WebWorkflowIdentity where
  current := identity.current ++ fieldUpdates name value
  legacy := identity.legacy.map (· ++ fieldUpdates name value)

def finish (identity : WebWorkflowIdentity) : Option Bytes := digestOf identity.current

/-- `field` with a nested identity: every hash takes the digest of its own nested hash. -/
def nestedField (identity : WebWorkflowIdentity) (name : Bytes) (nested : WebWorkflowIdentity) :
    Option WebWorkflowIdentity := do
  let current ← digestOf nested.current
  let legacy ← nested.legacy.mapM digestOf
  some {
    current := identity.current ++ fieldUpdates name current
    legacy := List.zipWith (fun updates digest => updates ++ fieldUpdates name digest)
      identity.legacy legacy }

/-- A sequence of fields. -/
def withFields (identity : WebWorkflowIdentity) (fields : List IdentityField) :
    WebWorkflowIdentity :=
  fields.foldl (fun identity field => identity.field field.1 field.2) identity

/-- The bytes that the current hash was given. -/
def fed (identity : WebWorkflowIdentity) : Bytes := identity.current.flatten

end WebWorkflowIdentity

/-! ### Framed fields -/

/-- The bytes of one field. -/
def frameField (field : IdentityField) : Bytes := frame field.1 ++ frame field.2

theorem flatten_fieldUpdates (field : IdentityField) :
    (fieldUpdates field.1 field.2).flatten = frameField field := by
  simp only [fieldUpdates, List.flatten_cons, List.flatten_nil, List.append_nil, frameField, frame,
    lengthPrefix, List.append_assoc]
  rfl

theorem unambiguous_frameField : Unambiguous frameField :=
  unambiguous_frame.prod unambiguous_frame

theorem frameField_ne_nil (field : IdentityField) : frameField field ≠ [] := by
  intro h
  exact frame_ne_nil _ (List.append_eq_nil_iff.1 h).1

/-- **Framed fields can be told apart**, whatever their number and their bytes. -/
theorem flatMap_frameField_inj {l m : List IdentityField}
    (h : l.flatMap frameField = m.flatMap frameField) : l = m :=
  unambiguous_frameField.flatMap_inj frameField_ne_nil h

/-- **The digest is that of the bytes that were fed**, as far as the hash takes them. -/
theorem digestOf_eq {updates : List Bytes} (h : updates.flatten.length < 2 ^ 61) :
    digestOf updates = some (Sha256.hexText (SecureHash.sha256 updates.flatten)) := by
  have hgiven : Sha256.given (updates.map .update ++ [.finish]) = updates.flatten := by
    rw [Sha256.given, List.flatMap_append, ← Sha256.given, Sha256.given_map_update]
    exact List.append_nil _
  obtain ⟨t, ht, -⟩ := Sha256.run_eq Sha256.holds_init (updates.map .update ++ [.finish]) (by
    rwa [hgiven, List.length_nil, Nat.zero_add])
  rw [digestOf, ht, Option.bind_eq_bind, Option.bind_some, Sha256.digests_map_update,
    List.nil_append]
  rfl

/-! ### What an identity has been fed -/

namespace OperationIdentity

theorem fed_field (identity : OperationIdentity) (name value : Bytes) :
    (identity.field name value).fed = identity.fed ++ frameField (name, value) := by
  rw [fed, field, List.flatten_append, flatten_fieldUpdates (name, value)]
  rfl

theorem fed_withFields (identity : OperationIdentity) (fields : List IdentityField) :
    (identity.withFields fields).fed = identity.fed ++ fields.flatMap frameField := by
  induction fields generalizing identity with
  | nil => exact (List.append_nil _).symm
  | cons field fields ih =>
    rw [withFields, List.foldl_cons, ← withFields, ih, fed_field, List.flatMap_cons,
      List.append_assoc]

/-- An identity that was created has three fields. -/
theorem fed_create {domain executableDigest : Bytes} {identity : OperationIdentity}
    (h : create domain executableDigest = some identity) :
    identity.fed = [(bytes "format", bytes "operation-blocks-v1"), (bytes "domain", domain),
      (bytes "executable", executableDigest)].flatMap frameField := by
  rw [create] at h
  split at h
  · cases h
  · rw [← Option.some.inj h, fed_field, fed_field, fed_field]
    simp only [List.flatMap_cons, List.flatMap_nil, List.append_nil, List.append_assoc]
    rfl

end OperationIdentity

namespace WebWorkflowIdentity

theorem fed_field (identity : WebWorkflowIdentity) (name value : Bytes) :
    (identity.field name value).fed = identity.fed ++ frameField (name, value) := by
  rw [fed, field, List.flatten_append, flatten_fieldUpdates (name, value)]
  rfl

theorem fed_withFields (identity : WebWorkflowIdentity) (fields : List IdentityField) :
    (identity.withFields fields).fed = identity.fed ++ fields.flatMap frameField := by
  induction fields generalizing identity with
  | nil => exact (List.append_nil _).symm
  | cons field fields ih =>
    rw [withFields, List.foldl_cons, ← withFields, ih, fed_field, List.flatMap_cons,
      List.append_assoc]

/-- An identity that was created has three fields. -/
theorem fed_create (domain : Bytes) :
    (create domain).fed = [(bytes "format", bytes "web-workflow-v2"), (bytes "domain", domain),
      (bytes "orchestration", bytes "2026-10-29.1")].flatMap frameField := by
  rw [fed, create, List.flatten_append, List.flatten_append,
    flatten_fieldUpdates (bytes "format", bytes "web-workflow-v2"),
    flatten_fieldUpdates (bytes "domain", domain),
    flatten_fieldUpdates (bytes "orchestration", bytes "2026-10-29.1")]
  simp only [List.flatMap_cons, List.flatMap_nil, List.append_nil, List.append_assoc]

/-- A nested identity is a field whose value is its digest. -/
theorem fed_nestedField {identity nested result : WebWorkflowIdentity} {name digest : Bytes}
    (hdigest : nested.finish = some digest) (h : identity.nestedField name nested = some result) :
    result.fed = identity.fed ++ frameField (name, digest) := by
  rw [finish] at hdigest
  rw [nestedField, hdigest, Option.bind_eq_bind, Option.bind_some] at h
  obtain ⟨legacy, -, hresult⟩ := Option.bind_eq_some_iff.1 h
  rw [← Option.some.inj hresult, fed, List.flatten_append, flatten_fieldUpdates (name, digest)]
  rfl

end WebWorkflowIdentity

/-- **The bytes that are hashed determine all fields**, those of the constructors included: two
identities with the same bytes have the same domain and executable, and field by field the same
names and values. -/
theorem fed_injective {domain domain' executable executable' : Bytes}
    {fields fields' : List IdentityField} :
    (∀ identity identity', OperationIdentity.create domain executable = some identity →
      OperationIdentity.create domain' executable' = some identity' →
      (identity.withFields fields).fed = (identity'.withFields fields').fed →
        domain = domain' ∧ executable = executable' ∧ fields = fields') ∧
      (((WebWorkflowIdentity.create domain).withFields fields).fed =
        ((WebWorkflowIdentity.create domain').withFields fields').fed →
          domain = domain' ∧ fields = fields') := by
  constructor
  · intro identity identity' hcreate hcreate' h
    rw [OperationIdentity.fed_withFields, OperationIdentity.fed_withFields,
      OperationIdentity.fed_create hcreate, OperationIdentity.fed_create hcreate',
      ← List.flatMap_append, ← List.flatMap_append] at h
    have hfields := flatMap_frameField_inj h
    simp only [List.cons_append, List.nil_append, List.cons.injEq, Prod.mk.injEq, true_and]
      at hfields
    exact hfields
  · intro h
    rw [WebWorkflowIdentity.fed_withFields, WebWorkflowIdentity.fed_withFields,
      WebWorkflowIdentity.fed_create, WebWorkflowIdentity.fed_create, ← List.flatMap_append,
      ← List.flatMap_append] at h
    have hfields := flatMap_frameField_inj h
    simp only [List.cons_append, List.nil_append, List.cons.injEq, Prod.mk.injEq, true_and]
      at hfields
    exact hfields

/-- A value that holds the frame of another field does not stand for that field, in a native program
and in the service. -/
theorem fed_injective_colon :
    (∀ identity, OperationIdentity.create [97] (List.replicate 64 97) = some identity →
      (identity.withFields [([98], bytes "11:x1:y")]).fed ≠
        (identity.withFields [([98], [49]), ([120], [121])]).fed) ∧
      ((WebWorkflowIdentity.create [97]).withFields [([98], bytes "11:x1:y")]).fed ≠
        ((WebWorkflowIdentity.create [97]).withFields [([98], [49]), ([120], [121])]).fed ∧
      (OperationIdentity.create [97] (List.replicate 64 97)).isSome = true := by
  have hne : ([([98], bytes "11:x1:y")] : List IdentityField) ≠
      [([98], [49]), ([120], [121])] := by decide
  have hinjective := @fed_injective [97] [97] (List.replicate 64 97) (List.replicate 64 97)
    [([98], bytes "11:x1:y")] [([98], [49]), ([120], [121])]
  refine ⟨fun identity hcreate h => hne ?_, fun h => hne (hinjective.2 h).2, by decide⟩
  exact (hinjective.1 identity identity hcreate hcreate h).2.2

end Resonantia.AppSupport
