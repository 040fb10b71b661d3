import Tinyflows.Lib.Json

/-!
# The schema version of a stored workflow

A stored workflow is brought to the current schema before it is read. The version is declared as a JSON
integer of up to 64 bits and compared after it was cut to 32.
-/

namespace Tinyflows.Model
open Lib Json

def CURRENT_SCHEMA_VERSION : Nat := 1

inductive MigrateError where
  | schemaVersionTooNew (found supported : Nat)
  deriving DecidableEq

/-- An absent version, or one that is no unsigned integer, counts as `0`. -/
def declaredVersion (value : Json) : Nat :=
  (((value.get "schema_version").bind asU64).getD 0).toNat

def migrateSteps (version : Nat) (value : Json) : Json :=
  if version < CURRENT_SCHEMA_VERSION then migrateSteps (version + 1) value else value
termination_by CURRENT_SCHEMA_VERSION - version

def stampVersion : Json → Json
  | .obj fs => .obj (insertField "schema_version" (.nat CURRENT_SCHEMA_VERSION) fs)
  | value => value

def migrate (value : Json) : Except MigrateError Json :=
  let version := declaredVersion value % 2 ^ 32
  if CURRENT_SCHEMA_VERSION < version then
    .error (.schemaVersionTooNew version CURRENT_SCHEMA_VERSION)
  else .ok (stampVersion (migrateSteps version value))

/-! ## What the version decides -/

/-- A document of a later version is refused. Every other one is returned at the current version, with its
other fields as they were, and migrating it again changes nothing. -/
def MigratedSafely (doc : Json) : Prop :=
  if CURRENT_SCHEMA_VERSION < declaredVersion doc then ∃ e, migrate doc = .error e
  else ∃ out, migrate doc = .ok out ∧ migrate out = .ok out ∧ ∀ key, out.get key =
    if key = "schema_version" then some (.nat CURRENT_SCHEMA_VERSION) else doc.get key

/-- A later version is later in its lower 32 bits too; a document of no later version is an object. -/
def Legible (doc : Json) : Prop :=
  if CURRENT_SCHEMA_VERSION < declaredVersion doc then CURRENT_SCHEMA_VERSION < declaredVersion doc % 2 ^ 32
  else doc.isObject = true

variable {value : Json}

theorem migrateSteps_eq (version) (value) : migrateSteps version value = value := by
  fun_induction migrateSteps version value with
  | case1 version h ih => exact ih
  | case2 version h => rfl

theorem migrate_refuses_iff :
    (∃ e, migrate value = .error e) ↔ CURRENT_SCHEMA_VERSION < declaredVersion value % 2 ^ 32 := by
  rw [migrate]
  split
  · next h => exact ⟨fun _ => h, fun _ => ⟨_, rfl⟩⟩
  · next h => exact ⟨nofun, fun h' => absurd h' h⟩

theorem migrate_of_le (h : declaredVersion value ≤ CURRENT_SCHEMA_VERSION) :
    migrate value = .ok (stampVersion value) := by
  have hn : ¬ CURRENT_SCHEMA_VERSION < declaredVersion value % 2 ^ 32 :=
    Nat.not_lt.mpr ((Nat.mod_le _ _).trans h)
  rw [migrate, if_neg hn, migrateSteps_eq]

theorem get_stampVersion (h : value.isObject = true) (key) : (stampVersion value).get key =
    if key = "schema_version" then some (.nat CURRENT_SCHEMA_VERSION) else value.get key := by
  cases value with
  | obj fs => exact lookup_insertField _ _ _ _
  | _ => cases h

theorem get_of_not_object (h : value.isObject = false) (key) : (stampVersion value).get key = none := by
  cases value with
  | obj fs => cases h
  | _ => rfl

theorem stampVersion_stampVersion (value) : stampVersion (stampVersion value) = stampVersion value := by
  cases value with
  | obj fs => exact congrArg obj (insertField_insertField_self _ _ _ _)
  | _ => rfl

theorem declaredVersion_stampVersion (h : value.isObject = true) :
    declaredVersion (stampVersion value) ≤ CURRENT_SCHEMA_VERSION := by
  rw [declaredVersion, get_stampVersion h, if_pos rfl]
  decide

/-- Migration is safe exactly for the documents whose version survives being cut to 32 bits, as far as it
is a later one, and that are objects otherwise. -/
theorem migrated_safely_iff (doc : Json) : MigratedSafely doc ↔ Legible doc := by
  unfold MigratedSafely Legible
  split
  · exact migrate_refuses_iff
  · next hold =>
      have hout := migrate_of_le (Nat.not_lt.mp hold)
      constructor
      · rintro ⟨out, hmigrated, -, hget⟩
        cases hout.symm.trans hmigrated
        by_contra hobject
        have hstamped := hget "schema_version"
        rw [get_of_not_object (Bool.not_eq_true _ ▸ hobject)] at hstamped
        cases hstamped
      · intro hobject
        refine ⟨stampVersion doc, hout, ?_, get_stampVersion hobject⟩
        rw [migrate_of_le (declaredVersion_stampVersion hobject), stampVersion_stampVersion]

def loweredVersion : Json := .obj [("schema_version", .num (.posInt 4294967296))]

/-- A version of `2 ^ 32` is read as `0`, accepted and rewritten. -/
theorem version_lowered : declaredVersion loweredVersion = 2 ^ 32 ∧ ¬ MigratedSafely loweredVersion ∧
    migrate loweredVersion = .ok (.obj [("schema_version", .nat CURRENT_SCHEMA_VERSION)]) := by
  have hmigrated : migrate loweredVersion = .ok (.obj [("schema_version", .nat CURRENT_SCHEMA_VERSION)]) := by
    rw [migrate, migrateSteps_eq]
    rfl
  refine ⟨rfl, fun h => ?_, hmigrated⟩
  obtain ⟨e, he⟩ : ∃ e, migrate loweredVersion = .error e := h
  cases hmigrated.symm.trans he

end Tinyflows.Model
