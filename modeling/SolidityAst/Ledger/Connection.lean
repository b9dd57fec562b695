import SolidityAst.Ledger.Table
import SolidityAst.Settings.Basic

/-!
Connecting to the database of the ledger.

A database that does not answer may be missing: it is made through the server, and asked again.
-/
namespace SolidityAst.Ledger

/-- What a server answers to a connection, to the database that the settings name or to none. Whether
the database was made before may matter. -/
structure Server where
  connect : (made named : Bool) → DatabaseSettings → Except Failure Database

def Server.unreachable : Server where
  connect _ _ d := .error (.told s!"dial tcp {d.host}:{d.port}: connect: network is unreachable")

def createDatabase (name : String) : Statement :=
  ⟨s!"CREATE DATABASE IF NOT EXISTS `{name}` DEFAULT CHARACTER SET utf8mb4 COLLATE utf8mb4_unicode_ci",
    []⟩

def Server.database (s : Server) (d : DatabaseSettings) : Except Failure Database :=
  match s.connect false true d with
  | .ok db => .ok db
  | .error first =>
    match (s.connect false false d).bind fun root => root (createDatabase d.name) with
    | .error e =>
      .error (.within s!"InitDB: create database {d.name}: " e s!" (first ping: {first.message})")
    | .ok () =>
      match s.connect true true d with
      | .ok db => .ok db
      | .error e => .error (.during "InitDB ping failed" e)

/-- The recorder of a ledger in a database, once its table is there. -/
def recorder (db : Database) : Except Failure Recorder :=
  match (openTable (some db)).outcome with
  | .error e => .error e
  | .ok () => .ok fun entry => (recordEntry db entry).outcome

end SolidityAst.Ledger
