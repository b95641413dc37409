import Mathlib.Data.Fintype.Basic
import Mathlib.Data.List.FinRange
import Mathlib.Logic.Function.Basic
import Swinst.Data.FlatStore
import Swinst.Data.PyText

/-! `StorageWrapper` of `bittorrent/StorageWrapper.py`: what has been downloaded of a torrent, and where its pieces
are in the storage. While pieces are missing they need not be in their own places. -/

namespace Swinst.BitTorrent

open Function (update)

abbrev Bytes := List UInt8

/-- A torrent of `n` pieces -/
structure Torrent (n : Nat) where
  sha : Bytes → Bytes
  hashes : Fin n → Bytes
  pieceSize : Nat
  totalLength : Nat
  requestSize : Nat

variable {σ : Type} {n : Nat}

/-- The storage, as `StorageWrapper` uses it -/
structure Backing (σ : Type) extends FlatStore σ UInt8 PyError where
  wasPreallocated : σ → (begin length : Nat) → Bool
  preallocated : ∀ {s begin length}, wasPreallocated s begin length = true →
    ∀ q, begin ≤ q → q < begin + length → q < total s → (item s q).isSome

/-- `inactive_requests` of a piece: `1`, `None` or a list of beginnings and lengths -/
inductive Requests
  | unmade
  | none
  | list (rs : List (Nat × Nat))
  deriving DecidableEq

/-- `not not requests` -/
def Requests.truthy : Requests → Bool
  | unmade => true
  | none => false
  | list rs => !rs.isEmpty

structure StorageWrapper (σ : Type) (n : Nat) where
  storage : σ
  amountLeft : Int
  numactive : Fin n → Int
  inactiveRequests : Fin n → Requests
  amountInactive : Int
  endgame : Bool
  have_ : Fin n → Bool
  waschecked : Fin n → Bool
  places : Fin n → Option (Fin n)
  holes : List (Fin n)

/-- How a download ends early: with a call of `failed`, or with another exception. `failed` sets the flag that
stops the server, and calls `errorfunc`. By itself that would return, and `piece_came_in` return `True`; the run ends
there because the `error_callback` of wubi raises `DownloadError`. -/
inductive Stop
  | failed (reason : String)
  | ioError
  | keyError
  | raised (e : PyError)
  deriving DecidableEq

/-- What `StorageWrapper` calls -/
inductive Callback
  | finished
  | dataFlunked (size : Nat)
  deriving DecidableEq

def Torrent.piecelen (t : Torrent n) (piece : Fin n) : Nat :=
  if piece.val + 1 < n then t.pieceSize else t.totalLength - piece * t.pieceSize

/-- An `IOError` is caught by `piece_came_in` and `get_piece`, and `failed` called. -/
def catchIOError {α : Type} : Except PyError α → Except Stop α
  | .ok a => .ok a
  | .error .ioError => .error .ioError
  | .error e => .error (.raised e)

def Backing.get (b : Backing σ) (s : σ) (pos amount : Nat) : Except Stop Bytes := catchIOError (b.read s pos amount)

def Backing.put (b : Backing σ) (s : σ) (pos : Nat) (data : Bytes) : Except Stop σ := catchIOError (b.write s pos data)

/-- `_waspre` -/
def waspre (b : Backing σ) (t : Torrent n) (s : σ) (piece : Fin n) : Bool :=
  b.wasPreallocated s (piece * t.pieceSize) (t.piecelen piece)

namespace StorageWrapper

variable (b : Backing σ) (t : Torrent n)

/-! ## Requests -/

/-- The loop of `_make_inactive` from `x` on, with at most `fuel` turns -/
def blocksFrom (requestSize length : Nat) : (fuel x : Nat) → List (Nat × Nat)
  | 0, x => [(x, length - x)]
  | fuel + 1, x =>
    if x + requestSize < length then (x, requestSize) :: blocksFrom requestSize length fuel (x + requestSize)
    else [(x, length - x)]

/-- `_make_inactive` -/
def blocks (index : Fin n) : List (Nat × Nat) :=
  let length := min t.pieceSize (t.totalLength - t.pieceSize * index)
  blocksFrom t.requestSize length length 0

def doIHaveRequests (sw : StorageWrapper σ n) (index : Fin n) : Bool := (sw.inactiveRequests index).truthy

/-- `r < s` for tuples -/
def less (r s : Nat × Nat) : Bool := r.1 < s.1 || (r.1 = s.1 && r.2 < s.2)

/-- `min(r, *rs)` -/
def minimum (r : Nat × Nat) (rs : List (Nat × Nat)) : Nat × Nat := rs.foldl (fun m r => if less r m then r else m) r

def newRequest (index : Fin n) (sw : StorageWrapper σ n) : Except Stop ((Nat × Nat) × StorageWrapper σ n) :=
  let requests := if sw.inactiveRequests index = .unmade then .list (blocks t index) else sw.inactiveRequests index
  let numactive := update sw.numactive index (sw.numactive index + 1)
  match requests with
  | .list (r :: rs) =>
    let m := minimum r rs
    let amountInactive := sw.amountInactive - m.2
    .ok (m,
      { sw with
        numactive
        inactiveRequests := update sw.inactiveRequests index (.list ((r :: rs).erase m))
        amountInactive
        endgame := if amountInactive = 0 then true else sw.endgame })
  | .list [] => .error (.raised .valueError)
  | _ => .error (.raised .typeError)

def requestLost (index : Fin n) (begin length : Nat) (sw : StorageWrapper σ n) :
    Except Stop (StorageWrapper σ n) :=
  match sw.inactiveRequests index with
  | .list rs =>
    .ok { sw with
      inactiveRequests := update sw.inactiveRequests index (.list (rs ++ [(begin, length)]))
      amountInactive := sw.amountInactive + length
      numactive := update sw.numactive index (sw.numactive index - 1) }
  | _ => .error (.raised .attributeError)

/-! ## Pieces that come in -/

/-- The piece that `for p, v in self.places.items()` finds at a position -/
def pieceAt (places : Fin n → Option (Fin n)) (pos : Fin n) : Except Stop (Fin n) :=
  match (List.finRange n).find? fun p => places p = some pos with
  | some p => .ok p
  | none => .error (.raised .nameError)

/-- A place that was not preallocated gets the bytes `0xFF`. -/
def fill (hole : Fin n) (s : σ) : Except Stop σ :=
  if waspre b t s hole then .ok s else b.put s (t.pieceSize * hole) (List.replicate (t.piecelen hole) 0xFF)

/-- What `_piece_came_in` does where the piece has no place -/
def allocate (index : Fin n) (sw : StorageWrapper σ n) : Except Stop (StorageWrapper σ n) :=
  match sw.holes with
  | [] => .error (.raised .indexError)
  | hole :: holes =>
    match sw.places hole with
    | some oldpos => do
      let old ← b.get sw.storage (t.pieceSize * oldpos) (t.piecelen hole)
      if sw.have_ hole && t.sha old ≠ t.hashes hole then
        .error (.failed "data corrupted on disk - maybe you have two copies running?")
      else do
        let storage ← b.put sw.storage (t.pieceSize * hole) old
        let places := update sw.places hole (some hole)
        if index = oldpos ∨ index ∈ holes then
          return { sw with storage, holes, places := update places index (some oldpos) }
        else do
          let p ← pieceAt places index
          let old ← b.get storage (t.pieceSize * index) t.pieceSize
          let storage ← b.put storage (t.pieceSize * oldpos) old
          return { sw with storage, holes, places := update (update places index (some index)) p (some oldpos) }
    | none =>
      if index ∈ holes ∨ index = hole then do
        let storage ← fill b t hole sw.storage
        return { sw with storage, holes, places := update sw.places index (some hole) }
      else do
        let p ← pieceAt sw.places index
        let old ← b.get sw.storage (t.pieceSize * index) (t.piecelen hole)
        let storage ← b.put sw.storage (t.pieceSize * hole) old
        return { sw with storage, holes, places := update (update sw.places index (some index)) p (some hole) }

def ensurePlace (index : Fin n) (sw : StorageWrapper σ n) : Except Stop (StorageWrapper σ n) :=
  if (sw.places index).isNone then allocate b t index sw else .ok sw

/-- What `_piece_came_in` does with the piece in its place -/
def arrive (index : Fin n) (begin : Nat) (piece : Bytes) (sw : StorageWrapper σ n) :
    Except Stop (Bool × List Callback × StorageWrapper σ n) :=
  match sw.places index with
  | none => .error .keyError
  | some pos => do
    let storage ← b.put sw.storage (pos * t.pieceSize + begin) piece
    let sw := { sw with storage, numactive := update sw.numactive index (sw.numactive index - 1) }
    if !doIHaveRequests sw index && sw.numactive index = 0 then do
      let data ← b.get sw.storage (t.pieceSize * pos) (t.piecelen index)
      if t.sha data = t.hashes index then
        let amountLeft := sw.amountLeft - t.piecelen index
        return (true, if amountLeft = 0 then [.finished] else [],
          { sw with
            have_ := update sw.have_ index true
            inactiveRequests := update sw.inactiveRequests index .none
            waschecked := update sw.waschecked index true
            amountLeft })
      else
        return (false, [.dataFlunked (t.piecelen index)],
          { sw with
            inactiveRequests := update sw.inactiveRequests index .unmade
            amountInactive := sw.amountInactive + t.piecelen index })
    else return (true, [], sw)

/-- `piece_came_in` -/
def pieceCameIn (index : Fin n) (begin : Nat) (piece : Bytes) (sw : StorageWrapper σ n) :
    Except Stop (Bool × List Callback × StorageWrapper σ n) := do
  let sw ← ensurePlace b t index sw
  arrive b t index begin piece sw

/-! ## Pieces that go out -/

/-- `_get_piece` before the length is checked -/
def ensureChecked (index pos : Fin n) (sw : StorageWrapper σ n) : Except Stop (StorageWrapper σ n) :=
  if sw.waschecked index then .ok sw
  else do
    let data ← b.get sw.storage (t.pieceSize * pos) (t.piecelen index)
    if t.sha data = t.hashes index then return { sw with waschecked := update sw.waschecked index true }
    else .error (.failed "told file complete on start-up, but piece failed hash check")

/-- `get_piece` -/
def getPiece (index : Fin n) (begin length : Nat) (sw : StorageWrapper σ n) :
    Except Stop (Option Bytes × StorageWrapper σ n) :=
  if !sw.have_ index then .ok (none, sw)
  else
    match sw.places index with
    | none => .error .keyError
    | some pos => do
      let sw ← ensureChecked b t index pos sw
      if begin + length > t.piecelen index then return (none, sw)
      else do
        let data ← b.get sw.storage (t.pieceSize * pos + begin) length
        return (some data, sw)

/-! ## `__init__` -/

def markgot (checkHashes : Bool) (piece pos : Fin n) (sw : StorageWrapper σ n) : StorageWrapper σ n :=
  { sw with
    places := update sw.places piece (some pos)
    have_ := update sw.have_ piece true
    amountLeft := sw.amountLeft - t.piecelen piece
    amountInactive := sw.amountInactive - t.piecelen piece
    inactiveRequests := update sw.inactiveRequests piece .none
    waschecked := update sw.waschecked piece checkHashes }

/-- `targets`, the pieces that are not in their places, by their hashes -/
abbrev Targets (n : Nat) := Bytes → List (Fin n)

def targets (s : σ) : Targets n := fun h => (List.finRange n).filter fun i => !waspre b t s i && t.hashes i = h

/-- What is made of the data in the place `i`, the digest of which is `h`, and that of their first `lastlen` bytes
`sp` -/
def recognize (last i : Fin n) (sp h : Bytes) (ts : Targets n) (sw : StorageWrapper σ n) :
    Targets n × StorageWrapper σ n :=
  let orLast :=
    if !sw.have_ last && sp = t.hashes last && (i = last || !waspre b t sw.storage last) then
      (ts, markgot t true last i sw)
    else (ts, { sw with places := update sw.places i (some i) })
  if h = t.hashes i then (ts, markgot t true i i sw)
  else
    match (ts h).getLast? with
    | some piece =>
      if t.piecelen i = t.piecelen piece then (update ts h (ts h).dropLast, markgot t true piece i sw) else orLast
    | none => orLast

/-- One turn of the loop of `__init__` -/
def check (checkHashes : Bool) (last i : Fin n) (ts : Targets n) (sw : StorageWrapper σ n) :
    Except PyError (Targets n × StorageWrapper σ n) :=
  if !waspre b t sw.storage i then .ok (ts, { sw with holes := sw.holes ++ [i] })
  else if !checkHashes then .ok (ts, markgot t checkHashes i i sw)
  else do
    let lastlen := t.piecelen last
    let first ← b.read sw.storage (t.pieceSize * i) lastlen
    let rest ← b.read sw.storage (t.pieceSize * i + lastlen) (t.piecelen i - lastlen)
    return recognize b t last i (t.sha first) (t.sha (first ++ rest)) ts sw

/-- The loop of `__init__`. `flag` tells after which pieces the flag is set; nothing is returned then. -/
def checkAll (checkHashes : Bool) (flag : Fin n → Bool) (last : Fin n) :
    List (Fin n) → Targets n → StorageWrapper σ n → Except PyError (Option (StorageWrapper σ n))
  | [], _, sw => .ok (some sw)
  | i :: is, ts, sw => do
    let (ts, sw) ← check b t checkHashes last i ts sw
    if waspre b t sw.storage i && checkHashes && flag i then return none
    else checkAll checkHashes flag last is ts sw

/-- The state before the loop of `__init__` -/
def start (checkHashes : Bool) (s : σ) : StorageWrapper σ n :=
  { storage := s, amountLeft := t.totalLength, numactive := fun _ => 0, inactiveRequests := fun _ => .unmade,
    amountInactive := t.totalLength, endgame := false, have_ := fun _ => false, waschecked := fun _ => checkHashes,
    places := fun _ => none, holes := [] }

/-- `__init__`, for a storage of `t.totalLength` bytes -/
def init (checkHashes : Bool) (flag : Fin n → Bool) (s : σ) :
    Except PyError (Option (List Callback × StorageWrapper σ n)) :=
  if (t.totalLength : Int) ≤ t.pieceSize * ((n : Int) - 1) then .error .valueError
  else if t.totalLength > t.pieceSize * n then .error .valueError
  else if h : n = 0 then .ok (some ([.finished], start t checkHashes s))
  else do
    let last : Fin n := ⟨n - 1, Nat.sub_one_lt h⟩
    let r ← checkAll b t checkHashes flag last (List.finRange n) (targets b t s) (start t checkHashes s)
    return r.map fun sw => (if sw.amountLeft = 0 then [.finished] else [], sw)

end StorageWrapper

end Swinst.BitTorrent
