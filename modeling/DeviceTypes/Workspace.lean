import DeviceTypes.Lowering.Session
/-!
# Workspaces

Several universes may mint into one table, each under a target and with
layouts of its own, and several sessions may lower into one universe. A
workspace owns the tables and the layouts. A universe is taken out of it
for a computation and put back afterwards, so each computation finds what
every earlier one left in the shared table.
-/

namespace DeviceTypes

/-- The place of a universe in a workspace: its table by number, and what is
its own. -/
structure Site where
  table : Nat
  target : Target
  layouts : LayoutCache

/-- Tables, and the universes over them. -/
structure Workspace where
  /-- The tables, each at the position that is its number. -/
  tables : List Table
  /-- The universes, each at the position that is its number. -/
  sites : List Site

namespace Workspace

/-- The workspace without tables. -/
def empty : Workspace := ⟨[], []⟩

/-- A new table, and the workspace that owns it. -/
def addTable (w : Workspace) : Nat × Workspace :=
  (w.tables.length, { w with tables := w.tables ++ [.empty w.tables.length] })

/-- A new universe over a table, and the workspace that owns it. -/
def addUniverse (w : Workspace) (table : Nat) (target : Target) : Nat × Workspace :=
  (w.sites.length, { w with sites := w.sites ++ [⟨table, target, .empty⟩] })

/-- The universe of a given number. -/
def universe? (w : Workspace) (n : Nat) : Option Universe := do
  let site ← w.sites[n]?
  let table ← w.tables[site.table]?
  return ⟨n, table, site.target, site.layouts⟩

/-- The workspace with the table and the layouts of a universe put back. -/
def put (w : Workspace) (u : Universe) : Workspace where
  tables := w.tables.set u.table.number u.table
  sites := w.sites.modify u.number fun site => { site with layouts := u.layouts }

/-- Puts a request to the universe of a given number: the answer, what it
leaves in the log, and the workspace after it. -/
def ask (w : Workspace) (n : Nat) (r : Request) :
    Option (r.Answer × List MintEvent × Workspace) :=
  (w.universe? n).map fun u =>
    let (a, events, u') := u.perform r
    (a, events, w.put u')

/-- The handle of a shape in the table of a given number, and the workspace
after it. Nothing is checked. -/
def intern (w : Workspace) (n : Nat) (s : Shape) : Option (Handle × Workspace) :=
  (w.tables[n]?).map fun t =>
    let (h, t') := t.intern s
    (h, { w with tables := w.tables.set n t' })

/-- Runs a computation of a session in its universe: the answer, what
happened, and the session and the workspace after it. -/
def runSession {α : Type} (w : Workspace) (s : Lowering.Session)
    (x : Lowering.Setting → Lowering.SessionM α) :
    Option (α × Array Lowering.Event × Lowering.Session × Workspace) :=
  (w.universe? s.site).map fun minter =>
    let (a, p) := ((x s.setting).run (s.start minter)).run
    (a, p.log, s.rest p, w.put p.minter)

end Workspace

end DeviceTypes
