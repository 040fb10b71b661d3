import Tinyflows.Lib.Crashes
import Tinyflows.Storage.Migrations

/-!
# What a migration is for

A step that makes its outputs record by record turns the data it finds into data in which every record
it read has been replaced by its outputs.
-/

namespace Tinyflows.Migrations
open Lib

abbrev Data := String → String → Option Row

def dataOf (s : SchemaStore) : Data :=
  fun collection id => (s.docs.lookup (SchemaKey.row collection id)).map (·.doc)

abbrev PerRecord := SourceRecord → Except StoreError (List TargetRecord)

/-- The step maps one record at a time. -/
def Step.Independent (step : Step) (f : PerRecord) : Prop :=
  ∀ inputs, step.run inputs = (inputs.mapM f).map List.flatten

/-- A record the step is to migrate. -/
def Step.IsSource (step : Step) (d : Data) (r : SourceRecord) : Prop :=
  d step.sourceName r.id = some r.row ∧ step.takes r.row = true

/-- `o` is one of the outputs of `r`. -/
def Yields (f : PerRecord) (r : SourceRecord) (o : TargetRecord) : Prop :=
  ∃ outputs, f r = .ok outputs ∧ o ∈ outputs

/-- An output that leaves its expiry open takes that of its record if it has its id. -/
def expiryOf (r : SourceRecord) (o : TargetRecord) : Option Int :=
  o.expiresMs.or (if o.id = r.id then r.row.metadata.expiresMs else none)

section Step

variable (schema : Schema) (step : Step) (f : PerRecord)

structure IsOutput (r : SourceRecord) (o : TargetRecord) (row : Row) : Prop where
  body : row.body = o.body
  version : targetSchema schema step o = .ok row.metadata.schema
  expires : row.metadata.expiresMs = expiryOf r o

def Holds (d : Data) (r : SourceRecord) (o : TargetRecord) : Prop :=
  ∃ row, d o.collection o.id = some row ∧ IsOutput schema step r o row

/-- Every output is stored, every record that was read is gone unless an output is in its place, and
nothing else has changed. -/
structure Migrated (before after : Data) : Prop where
  stored : ∀ {r o}, step.IsSource before r → Yields f r o → Holds schema step after r o
  gone : ∀ {r}, step.IsSource before r →
    (∀ r' o, step.IsSource before r' → Yields f r' o → o.key ≠ (step.sourceName, r.id)) →
    after step.sourceName r.id = none
  kept : ∀ {collection id}, (∀ r, step.IsSource before r → (collection, id) ≠ (step.sourceName, r.id)) →
    (∀ r o, step.IsSource before r → Yields f r o → o.key ≠ (collection, id)) →
    after collection id = before collection id

/-- Two records have no output key in common. -/
def Distinct (d : Data) : Prop :=
  ∀ r r' o o', step.IsSource d r → step.IsSource d r' → Yields f r o → Yields f r' o' →
    o.key = o'.key → r = r'

/-- What else has to hold of the outputs. -/
structure Orderly (d : Data) : Prop where
  eq_of_key : ∀ {r o o'}, step.IsSource d r → Yields f r o → Yields f r o' → o.key = o'.key → o = o'
  place : ∀ {r o}, step.IsSource d r → Yields f r o → o.collection = step.sourceName →
    step.sourceName = step.item ∧ (d step.sourceName o.id ≠ none → o.id = r.id)
  /-- The output in the place of its record comes last. -/
  last : ∀ {r before o after}, step.IsSource d r → f r = .ok (before ++ o :: after) →
    o.key = (step.sourceName, r.id) → ∀ o' ∈ after, o' = o
  /-- What has the id of an output that leaves its expiry open, and is not its record, does not expire. -/
  expiry : ∀ {r o}, step.IsSource d r → Yields f r o → o.expiresMs = none → o.id ≠ r.id →
    (∀ row ∈ d step.sourceName o.id, row.metadata.expiresMs = none) ∧
    ∀ r' o', step.IsSource d r' → Yields f r' o' → o'.key = (step.sourceName, o.id) → expiryOf r' o' = none

/-! ## A step under way -/

/-- The record has been migrated: its outputs are stored, and it is gone unless one is in its place. -/
structure Settled (d : Data) (r : SourceRecord) : Prop where
  yields : ∃ outputs, f r = .ok outputs
  stored : ∀ {o}, Yields f r o → Holds schema step d r o
  gone : (∀ o, Yields f r o → o.key ≠ (step.sourceName, r.id)) → d step.sourceName r.id = none

structure Underway (before now : Data) : Prop where
  sources : ∀ {r}, step.IsSource before r →
    now step.sourceName r.id = some r.row ∨ Settled schema step f now r
  others : ∀ {collection id}, (∀ r, step.IsSource before r → (collection, id) ≠ (step.sourceName, r.id)) →
    now collection id = before collection id ∨
      ∃ r o, step.IsSource before r ∧ Yields f r o ∧ o.key = (collection, id) ∧ Holds schema step now r o

def SettledTo (before now : Data) (cursor : Option String) : Prop :=
  ∀ {r}, step.IsSource before r → (∃ c ∈ cursor, r.id ≤ c) → Settled schema step f now r

end Step

/-- The steps have been made, one after the other. -/
inductive MigratedBy (schema : Schema) (each : Step → PerRecord) : List Step → Data → Data → Prop
  | nil {d : Data} : MigratedBy schema each [] d d
  | snoc {steps : List Step} {step : Step} {d d' d'' : Data} (h : MigratedBy schema each steps d d')
      (hstep : Migrated schema step (each step) d' d'') : MigratedBy schema each (steps ++ [step]) d d''

end Tinyflows.Migrations
