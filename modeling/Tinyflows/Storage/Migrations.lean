import Tinyflows.Lib.Documents
import Tinyflows.Lib.Json

/-!
# Owner migrations

A step reads the records of a collection page by page, stores what it makes of them, deletes what it
read, and notes how far it has come. Each of these is a write of its own.
-/

namespace Tinyflows.Migrations
open Lib

structure Meta where
  schema : Nat
  createdMs : Int
  expiresMs : Option Int := none
  deriving DecidableEq

structure Row where
  body : Json
  metadata : Meta
  deriving DecidableEq

structure SourceRecord where
  id : String
  row : Row
  deriving DecidableEq

structure TargetRecord where
  collection : String
  id : String
  body : Json
  expiresMs : Option Int := none
  deriving DecidableEq

def TargetRecord.key (o : TargetRecord) : String × String :=
  (o.collection, o.id)

structure Step where
  id : String
  item : String
  from_ : Nat
  to_ : Nat
  source : Option String := none
  run : List SourceRecord → Except StoreError (List TargetRecord)

def Step.sourceName (step : Step) : String :=
  step.source.getD step.item

/-- One owner's collections, with their versions, and its migrations in order. -/
structure Schema where
  owner : String
  items : List (String × Nat)
  steps : List Step

structure Progress where
  owner : String
  step : String
  from_ : Nat
  to_ : Nat
  cursor : Option String
  written : Nat
  done : Bool
  deriving DecidableEq

/-! ## The store -/

inductive SchemaKey where
  | row (collection id : String)
  | progress (owner item step : String)
  deriving DecidableEq

abbrev SchemaDocs : SchemaKey → Type
  | .row _ _ => Row
  | .progress _ _ _ => Progress

abbrev SchemaStore := Store SchemaDocs Unit

abbrev Migration := ExceptT StoreError (Transaction SchemaDocs Unit)

def SchemaKey.inCollection (collection : String) : SchemaKey → Bool
  | .row c _ => c = collection
  | .progress _ _ _ => false

def recordOf : (Σ k, Versioned (SchemaDocs k)) → Option (String × Versioned Row)
  | ⟨.row _ id, row⟩ => some (id, row)
  | ⟨.progress _ _ _, _⟩ => none

namespace Migration

def get (k : SchemaKey) : Migration (Option (Versioned (SchemaDocs k))) :=
  ExceptT.mk (Transaction.get k)

def write (op : WriteOp SchemaDocs) : Migration Unit :=
  ExceptT.mk (Transaction.write [op] none)

def tryWrite (op : WriteOp SchemaDocs) : Migration Bool :=
  ExceptT.mk do
    match ← Transaction.write [op] none with
    | .ok () => return .ok true
    | .error .conflict => return .ok false
    | .error e => return .error e

def rows (collection : String) : Migration (List (String × Versioned Row)) :=
  ExceptT.mk do return (← Transaction.list (·.inCollection collection)).map (·.filterMap recordOf)

end Migration

structure MigrateOptions where
  batchSize : Nat := 100
  /-- Whether the store gives a cursor with every full page, or only where more follows. -/
  eager : Bool := false
  /-- The instant at which the store says a record was created. -/
  stamp : String × String → Int
  /-- The number of pages after which the migration is cut short. -/
  pages : Nat

structure Page where
  items : List (String × Versioned Row)
  next : Option String

/-- The first records after the cursor, in the order of their ids. -/
def pageOf (options : MigrateOptions) (cursor : Option String) (rows : List (String × Versioned Row)) :
    Page :=
  let after := (rows.insertionSort fun a b => a.1 ≤ b.1).filter fun r => cursor.all (· < r.1)
  let items := after.take options.batchSize
  let more := if options.eager then decide (items.length = options.batchSize)
    else decide (items.length < after.length)
  { items, next := if more then items.getLast?.map (·.1) else none }

/-! ## One step -/

/-- The version of the collection a record goes to. It has to be one the owner declared. -/
def targetSchema (schema : Schema) (step : Step) (target : TargetRecord) : Except StoreError Nat :=
  let owned := (schema.owner.toList ++ ['.']).isPrefixOf target.collection.toList
  match (schema.items.lookup target.collection).filter fun _ => owned with
  | none => .error (.failure "migration output targets an undeclared owner collection")
  | some version => .ok (if target.collection = step.item then step.to_ else version)

section Step

variable (schema : Schema) (options : MigrateOptions) (step : Step)

abbrev progressKey : SchemaKey :=
  .progress schema.owner step.item step.id

def saveProgress (cursor : Option String) (written : Nat) (done : Bool) : Migration Unit :=
  .write (.put (progressKey schema step)
    { owner := schema.owner, step := step.id, from_ := step.from_, to_ := step.to_, cursor, written, done }
    .any)

def Step.takes (row : Row) : Bool :=
  step.sourceName ≠ step.item ∨ row.metadata.schema < step.to_

def sameRow (page : Page) (target : TargetRecord) : Option (Versioned Row) :=
  if step.sourceName = step.item ∧ target.collection = step.item then page.items.lookup target.id
  else none

def expectedExpiry (page : Page) (target : TargetRecord) : Option Int :=
  target.expiresMs.or ((page.items.lookup target.id).bind (·.doc.metadata.expiresMs))

def targetRow (page : Page) (target : TargetRecord) (outputSchema : Nat) : Row where
  body := target.body
  metadata := {
    schema := outputSchema
    createdMs := (sameRow step page target).elim (options.stamp target.key) (·.doc.metadata.createdMs)
    expiresMs := expectedExpiry page target }

/-- A record found in the place of a target is taken for it if nothing tells them apart. -/
def identical (page : Page) (target : TargetRecord) (outputSchema : Nat) (row : Row) : Bool :=
  row.body = target.body ∧ row.metadata.schema = outputSchema ∧
    (sameRow step page target).all (fun source => row.metadata.createdMs = source.doc.metadata.createdMs) ∧
    row.metadata.expiresMs = expectedExpiry page target

def storeTarget (page : Page) (target : TargetRecord) : Migration Unit := do
  if target.body.isObject = false then
    throw (.failure "migration output must be an object")
  match targetSchema schema step target with
  | .error e => throw e
  | .ok outputSchema =>
    let written ← Migration.tryWrite (.put (.row target.collection target.id)
      (targetRow options step page target outputSchema) (.unchanged (sameRow step page target)))
    if written then return ()
    else
      let existing ← Migration.get (.row target.collection target.id)
      if existing.any fun row => identical step page target outputSchema row.doc then return ()
      else throw .conflict

def storeTargets (page : Page) : List TargetRecord → Migration Unit
  | [] => return ()
  | target :: rest => do
    storeTarget schema options step page target
    storeTargets page rest

def dropSource (outputs : List TargetRecord) (id : String) (row : Versioned Row) : Migration Unit :=
  if step.sourceName ≠ step.item ∨
      (row.doc.metadata.schema < step.to_ ∧ (step.item, id) ∉ outputs.map TargetRecord.key) then do
    let dropped ← Migration.tryWrite (.delete (.row step.sourceName id) (.version row.version))
    if dropped then return ()
    else
      match ← Migration.get (.row step.sourceName id) with
      | none => return ()
      | some _ => throw .conflict
  else return ()

def dropSources (outputs : List TargetRecord) : List (String × Versioned Row) → Migration Unit
  | [] => return ()
  | (id, row) :: rest => do
    dropSource step outputs id row
    dropSources outputs rest

def Page.inputs (page : Page) : List SourceRecord :=
  (page.items.filter fun r => step.takes r.2.doc).map fun r => { id := r.1, row := r.2.doc }

def migratePages : Nat → Option String → Nat → Migration Nat
  | 0, _, _ => throw (.failure "cut short")
  | left + 1, cursor, written => do
    let rows ← Migration.rows step.sourceName
    let page := pageOf options cursor rows
    if page.items.isEmpty then return written
    else
      match step.run (Page.inputs step page) with
      | .error e => throw e
      | .ok outputs =>
        storeTargets schema options step page outputs
        dropSources step outputs page.items
        saveProgress schema step page.next (written + outputs.length) false
        match page.next with
        | some next => migratePages left (some next) (written + outputs.length)
        | none => return written + outputs.length

/-- The number of records written, or nothing when the step was done before. -/
def migrateStep : Migration (Option Nat) := do
  let progress ← Migration.get (progressKey schema step)
  let progress := progress.map (·.doc)
  if progress.any (·.done) then return none
  else
    let written ← migratePages schema options step options.pages (progress.bind (·.cursor))
      (progress.elim 0 (·.written))
    saveProgress schema step none written true
    return some written

end Step

/-! ## All steps -/

structure StepReport where
  owner : String
  item : String
  step : String
  written : Nat
  deriving DecidableEq

structure MigrationReport where
  ran : List StepReport := []
  alreadyDone : Nat := 0
  deriving DecidableEq

def MigrationReport.add (report : MigrationReport) (schema : Schema) (step : Step) :
    Option Nat → MigrationReport
  | none => { report with alreadyDone := report.alreadyDone + 1 }
  | some written => { report with
      ran := report.ran ++ [{ owner := schema.owner, item := step.item, step := step.id, written }] }

def migrateSteps (schema : Schema) (options : MigrateOptions) : List Step → MigrationReport →
    Migration MigrationReport
  | [], report => return report
  | step :: rest, report => do
    let written ← migrateStep schema options step
    migrateSteps schema options rest (report.add schema step written)

def migrate (schema : Schema) (options : MigrateOptions) : Migration MigrationReport :=
  if options.batchSize = 0 then throw (.failure "migration batch size must be at least 1")
  else migrateSteps schema options schema.steps {}

end Tinyflows.Migrations
