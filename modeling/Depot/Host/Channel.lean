import Depot.Files.Disk
import Depot.Text.Utf8

/-! Open files and pipes, and the machine that keeps them. -/

namespace Depot.Host

open Files

/-- An open file or pipe. Streams that were made from one another share it. -/
inductive Channel where
  /-- Takes everything and gives nothing. -/
  | void
  /-- Gives nothing but zeros. -/
  | zeros
  /-- Gives what is left of a text. -/
  | supply (rest : Octets)
  /-- Keeps what is written, the last piece first. -/
  | sink (pieces : List Octets)
  | file (place : Place) (offset : Nat) (isAppend canRead canWrite : Bool)
  | folder

/-- What all processes share: the disk, the open channels and the signals on their way. -/
structure Machine where
  disk : Disk
  channels : Array Channel := #[]
  nextProcess : Nat := 1000
  /-- Processes with the signals they have been sent. -/
  signals : List (Nat × Nat) := []

inductive ChannelFault where
  | closed
  | isDirectory
  /-- Nobody reads what is written. -/
  | unread
  deriving DecidableEq

/-- The most pieces and the most characters that a pipe holds; who writes more is taken to write
without end. -/
def pieceLimit : Nat := 20000
def sinkLimit : Nat := 4194304

def overwrite (data : Bytes) (offset : Nat) (text : Bytes) : Bytes :=
  data.take offset ++ List.replicate (offset - data.length) 0 ++ text ++
    data.drop (offset + text.length)

namespace Machine

def channel (m : Machine) (i : Nat) : Channel := m.channels.getD i .void

def opened (m : Machine) (c : Channel) : Machine × Nat :=
  ({ m with channels := m.channels.push c }, m.channels.size)

def setChannel (m : Machine) (i : Nat) (c : Channel) : Machine :=
  { m with channels := m.channels.setIfInBounds i c }

/-- The data of an open file; none if the file is gone. -/
def dataAt (m : Machine) (place : Place) : Bytes :=
  match m.disk.root.get? place with
  | some (.file _ data) => data
  | _ => []

def write (m : Machine) (i : Nat) (text : Octets) : Except ChannelFault Machine :=
  match m.channel i with
  | .void | .zeros => .ok m
  | .supply _ => .error .closed
  | .folder => .error .closed
  | .sink pieces =>
    if text = [] then .ok m
    else if pieces.length % 1000 = 999 ∧
        (pieces.length > pieceLimit ∨ (pieces.map List.length).foldl (· + ·) 0 > sinkLimit) then
      .error .unread
    else .ok (m.setChannel i (.sink (text :: pieces)))
  | .file place offset isAppend canRead canWrite =>
    if !canWrite then .error .closed
    else if text = [] then .ok m
    else
      let text := text.toBytes
      let offset := if isAppend then (m.dataAt place).length else offset
      let disk := m.disk.alter place fun
        | some (.file mode data) => some (.file mode (overwrite data offset text))
        | node? => node?
      .ok ({ m with disk := disk }.setChannel i
        (.file place (offset + text.length) isAppend canRead canWrite))

/-- What a reader gets that reads to the end. Zeros have none: `most` bounds them. -/
def peek (m : Machine) (i : Nat) (most : Nat := 1048576) : Except ChannelFault Octets :=
  match m.channel i with
  | .void => .ok []
  | .zeros => .ok (List.replicate most '\x00')
  | .supply rest => .ok rest
  | .sink _ => .error .closed
  | .folder => .error .isDirectory
  | .file place offset _ canRead _ =>
    if canRead then .ok (.ofBytes ((m.dataAt place).drop offset)) else .error .closed

def consume (m : Machine) (i : Nat) (count : Nat) : Machine :=
  match m.channel i with
  | .supply rest => m.setChannel i (.supply (rest.drop count))
  | .file place offset isAppend canRead canWrite =>
    m.setChannel i (.file place (offset + count) isAppend canRead canWrite)
  | _ => m

def canRewind (m : Machine) (i : Nat) : Bool :=
  match m.channel i with
  | .file .. => true
  | _ => false

def collected (m : Machine) (i : Nat) : Octets :=
  match m.channel i with
  | .sink pieces => pieces.reverse.flatten
  | _ => []

/-- Makes what has been written readable. -/
def turn (m : Machine) (i : Nat) : Machine := m.setChannel i (.supply (m.collected i))

structure OpenMode where
  canRead : Bool := false
  canWrite : Bool := false
  creates : Bool := false
  empties : Bool := false
  isAppend : Bool := false
  /-- A file that exists is refused. -/
  isNew : Bool := false

def openPath (m : Machine) (path : Octets) (mode : OpenMode) (bits : Nat) :
    Except Errno (Machine × Nat) := do
  if path = octets "/dev/zero" then return m.opened .zeros
  let found ← m.disk.find true path.toBytes
  let file (m : Machine) := m.opened (.file found.place 0 mode.isAppend mode.canRead mode.canWrite)
  match found.node with
  | none =>
    if !mode.creates then throw .notFound
    if path.getLast? = some '/' then throw .isDirectory
    return file { m with disk := m.disk.put found.place (.file bits []) }
  | some (.file bits _) =>
    if mode.isNew then throw .exists
    if mode.empties then return file { m with disk := m.disk.put found.place (.file bits []) }
    else return file m
  | some (.dir ..) =>
    if mode.canWrite then throw .isDirectory else return m.opened .folder
  | some (.special .nullDevice) => return m.opened .void
  | some (.special _) => throw .noDevice
  | some (.link _) => throw .tooManyLinks

end Machine

end Depot.Host
