import Projector.Address.Arithmetic

/-!
# The ledger of moves

A ledger remembers for every part that was moved where it lives in the document and where it is
shown now. A part that is moved again keeps where it lives, and the records of parts inside a moved
part move along, so one record is always enough to find where a shown address comes from: the one
with the longest address at or above it.
-/

namespace Projector

/-- What is remembered about a moved part. -/
structure Record where
  /-- The address in the document at which the part lives. -/
  home : String
  /-- The address of the container it is shown in. -/
  parent : String
  /-- The key it is shown under. -/
  key : String
  /-- Whether that container is a list. -/
  intoArray : Bool
  deriving DecidableEq

/-- The address a moved part is shown at. -/
def Record.address (record : Record) : String :=
  Address.child record.parent record.key record.intoArray

/-- The records of all moves, each address at most once, in the order in which the addresses came
in. -/
structure Ledger where
  records : List Record
  deriving DecidableEq

namespace Ledger

/-- The ledger of an outline in which nothing was moved. -/
def empty : Ledger := ⟨[]⟩

/-- The record of the part at an address. -/
def get? (ledger : Ledger) (address : String) : Option Record :=
  ledger.records.find? fun record => decide (record.address = address)

/-- Whether the part at an address was moved itself. -/
def contains (ledger : Ledger) (address : String) : Bool := (ledger.get? address).isSome

/-- Enters a record: in place of the one with the same address if there is one, at the end
otherwise. -/
def enter (records : List Record) (record : Record) : List Record :=
  match records with
  | [] => [record]
  | other :: rest =>
    if other.address = record.address then record :: rest else other :: enter rest record

/-- A record at or above a path, and the steps from it to the path. -/
structure Covering where
  /-- The record. -/
  record : Record
  /-- The steps from the address of the record to the path. -/
  rest : Path

/-- The better of a covering found so far and a record: the one with the longer address, the
earlier one of two equally long ones. -/
def better (path : Path) (best : Option Covering) (record : Record) :
    Except Address.Fault (Option Covering) := do
  let front ← Address.parse record.address
  match following? front path with
  | none => .ok best
  | some rest =>
    match best with
    | none => .ok (some { record, rest })
    | some known =>
      .ok (some (if rest.length < known.rest.length then { record, rest } else known))

/-- The record with the longest address at or above a path. -/
def covering? (ledger : Ledger) (path : Path) : Except Address.Fault (Option Covering) :=
  ledger.records.foldlM (better path) none

/-- Where the part shown at an address lives in the document. -/
def resolve (ledger : Ledger) (address : String) : Except Address.Fault String := do
  let path ← Address.parse address
  match ← ledger.covering? path with
  | none => .ok address
  | some covering => do
    let home ← Address.parse covering.record.home
    .ok (Path.address (home ++ covering.rest))

/-- A move of a part under a new parent. -/
structure Move where
  /-- The address the part is shown at before the move. -/
  source : String
  /-- The address of the container it moves into. -/
  parent : String
  /-- The key it is shown under after the move. -/
  key : String
  /-- Whether that container is a list. -/
  intoArray : Bool

/-- The address of a part after it has moved. -/
def Move.address (move : Move) : String := Address.child move.parent move.key move.intoArray

/-- The record of a moved part: where it lives is kept from an earlier move, and otherwise follows
from the records of the parts around it. -/
def moved (ledger : Ledger) (move : Move) : Except Address.Fault Record :=
  match ledger.get? move.source with
  | some record =>
    .ok { record with parent := move.parent, key := move.key, intoArray := move.intoArray }
  | none => do
    let home ← ledger.resolve move.source
    .ok { home, parent := move.parent, key := move.key, intoArray := move.intoArray }

/-- The record of another part after a move: inside the moved part its parent moves along. -/
def carried (move : Move) (record : Record) : Except Address.Fault Record := do
  if ← Address.covers move.source record.address then
    let parent ← Address.rebase record.parent move.source move.address
    .ok { record with parent }
  else .ok record

/-- Enters what becomes of a record, unless it is the one of the moved part itself. -/
def carry (move : Move) (records : List Record) (record : Record) :
    Except Address.Fault (List Record) := do
  if record.address = move.source then .ok records
  else
    let record ← carried move record
    .ok (enter records record)

/-- Enters a move, and gives the record of the moved part. -/
def relocate (ledger : Ledger) (move : Move) : Except Address.Fault (Record × Ledger) := do
  let record ← ledger.moved move
  let others ← ledger.records.foldlM (carry move) []
  .ok (record, ⟨enter others record⟩)

end Ledger

end Projector
