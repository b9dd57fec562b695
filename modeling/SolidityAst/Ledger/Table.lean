import SolidityAst.Ledger.Entry

/-!
The ledger as a table of a database.

The table is made when the ledger is opened. A record is one statement that inserts the entry or, when
the source path is there already, replaces all else.
-/
namespace SolidityAst.Ledger

inductive Argument where
  | text (s : String)
  | null
  /-- A moment; the one at which the statement runs when none is given. -/
  | time (t : Option Instant)
  deriving DecidableEq, Repr

structure Statement where
  query : String
  arguments : List Argument
  deriving DecidableEq, Repr

def createTable : Statement := ⟨"
CREATE TABLE IF NOT EXISTS ast_exports (
    source_path VARCHAR(768) NOT NULL PRIMARY KEY COMMENT 'Absolute source path',
    source_hash CHAR(66) NULL COMMENT 'keccak256 of the source',
    output_path TEXT NULL COMMENT 'Written AST file',
    status VARCHAR(16) NOT NULL COMMENT 'ok | syntax_error | failed',
    error_text TEXT NULL COMMENT 'Failure detail',
    compiler VARCHAR(255) NULL COMMENT 'solc binary used',
    exported_at DATETIME NOT NULL COMMENT 'Last attempt',
    INDEX idx_status (status),
    INDEX idx_source_hash (source_hash)
) ENGINE=InnoDB DEFAULT CHARSET=utf8mb4 COLLATE=utf8mb4_unicode_ci COMMENT='Solidity AST export ledger';
", []⟩

def upsertQuery : String := "
INSERT INTO ast_exports (source_path, source_hash, output_path, status, error_text, compiler, exported_at)
VALUES (?, ?, ?, ?, ?, ?, ?)
ON DUPLICATE KEY UPDATE
    source_hash = VALUES(source_hash),
    output_path = VALUES(output_path),
    status = VALUES(status),
    error_text = VALUES(error_text),
    compiler = VALUES(compiler),
    exported_at = VALUES(exported_at)"

/-- A text, or null when it is empty. -/
def nullable (s : String) : Argument := if s = "" then .null else .text s

/-- The moment of an entry, unless it is the one that stands for none. -/
def Entry.moment? (e : Entry) : Option Instant := e.exportedAt.filter (· != Instant.zero)

def upsert (e : Entry) : Statement :=
  ⟨upsertQuery, [.text e.sourcePath, nullable e.sourceHash, nullable e.outputPath, .text e.status,
    nullable e.error, nullable e.compiler, .time e.moment?]⟩

abbrev Database := Statement → Except Failure Unit

structure Executed where
  statements : List Statement
  outcome : Except Failure Unit

def Database.execute (db : Database) (doing : String) (s : Statement) : Executed :=
  match db s with
  | .ok () => ⟨[s], .ok ()⟩
  | .error e => ⟨[], .error (.during doing e)⟩

def openTable : Option Database → Executed
  | none => ⟨[], .error (.told "ledger: db is nil")⟩
  | some db => Database.execute db "ledger: create table" createTable

def recordEntry (db : Database) (e : Entry) : Executed :=
  Database.execute db s!"ledger: record {e.sourcePath}" (upsert e)

end SolidityAst.Ledger
