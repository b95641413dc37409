import Swinst.BitTorrent.Bitfield
import Swinst.BitTorrent.PiecePicker
import Swinst.BitTorrent.Storage
import Swinst.BitTorrent.Requests

/-! `Downloader` and `SingleDownload` of `bittorrent/Downloader.py`: what is asked of which peer. Peers are numbers
here; what is sent to them and what the storage calls is written down in the order in which it happens. -/

namespace Swinst.BitTorrent

open Function (update)
open StorageWrapper (newRequest requestLost pieceCameIn blocks)

variable {σ : Type} {n : Nat}

/-- `SingleDownload` -/
structure Peer (n : Nat) where
  choked : Bool
  interested : Bool
  activeRequests : List (Request n)
  have_ : Bitfield n
  exampleInterest : Option (Fin n)

/-- What is sent to a peer -/
inductive Message (n : Nat)
  | interested
  | notInterested
  | request (r : Request n)
  | cancel (r : Request n)
  deriving DecidableEq

structure Downloader (σ : Type) (n : Nat) where
  storage : StorageWrapper σ n
  picker : PiecePicker n
  backlog : Nat
  allRequests : List (Request n)
  downloads : List Nat
  peers : Nat → Peer n
  random : Random
  sent : List (Nat × Message n)
  calls : List Callback

/-- An exception of the picker -/
def raising {α : Type} : Except PyError α → Except Stop α
  | .ok a => .ok a
  | .error e => .error (.raised e)

namespace Downloader

variable (b : Backing σ) (t : Torrent n)

def send (id : Nat) (m : Message n) (d : Downloader σ n) : Downloader σ n := { d with sent := d.sent ++ [(id, m)] }

def setPeer (id : Nat) (p : Peer n) (d : Downloader σ n) : Downloader σ n := { d with peers := update d.peers id p }

/-- `interested = True`, which is sent -/
def interest (id : Nat) (d : Downloader σ n) : Downloader σ n :=
  send id .interested (setPeer id { d.peers id with interested := true } d)

/-- `interested = False`, which is sent -/
def loseInterest (id : Nat) (d : Downloader σ n) : Downloader σ n :=
  send id .notInterested (setPeer id { d.peers id with interested := false } d)

/-- `_want` -/
def want (d : Downloader σ n) (id : Nat) (index : Fin n) : Bool :=
  (d.peers id).have_.get index && d.storage.doIHaveRequests index

/-- `numfalse == 0` -/
def seed (d : Downloader σ n) (id : Nat) : Bool := (d.peers id).have_.numfalse = 0

/-- `del l[k:]` -/
def truncate {α : Type} (l : List α) (k : Int) : List α := l.take (if k < 0 then k + l.length else k).toNat

/-- The requests are sent. -/
def ask (id : Nat) (rs : List (Request n)) (d : Downloader σ n) : Downloader σ n :=
  { d with
    peers := update d.peers id { d.peers id with activeRequests := (d.peers id).activeRequests ++ rs }
    sent := d.sent ++ rs.map fun r => (id, .request r) }

/-- `active_requests.remove` -/
def dropRequest (id : Nat) (r : Request n) (d : Downloader σ n) : Downloader σ n :=
  setPeer id { d.peers id with activeRequests := (d.peers id).activeRequests.erase r } d

def fixDownloadEndgame (id : Nat) (d : Downloader σ n) : Downloader σ n :=
  let p := d.peers id
  let want := d.allRequests.filter fun a => p.have_.get a.1 && a ∉ p.activeRequests
  if p.interested && p.activeRequests.isEmpty && want.isEmpty then loseInterest id d
  else
    let d := if !p.interested && !want.isEmpty then interest id d else d
    if p.choked then d
    else
      let (want, random) := Random.shuffle want d.random
      ask id (truncate want (d.backlog - p.activeRequests.length)) { d with random }

/-- One turn of the first loop of `_request_more`, with the piece that is asked for. The list is `lost_interests`. -/
def requestOne (id : Nat) (i : Fin n) (lost : List (Fin n)) (d : Downloader σ n) :
    Except Stop (List (Fin n) × Downloader σ n) := do
  let d := if (d.peers id).interested then d else interest id d
  let d := setPeer id { d.peers id with exampleInterest := some i } d
  let (r, storage) ← newRequest t i d.storage
  let d := ask id [(i, r)] { d with storage, picker := d.picker.requested i (d.seed id) }
  return (if d.storage.doIHaveRequests i then lost else lost ++ [i], d)

/-- The piece that is asked for -/
def chooseInterest (id : Nat) (indices : Option (List (Fin n))) (d : Downloader σ n) :
    Except Stop (Option (Fin n) × Downloader σ n) :=
  match indices with
  | none => do
    let (interest, random) ← raising (d.picker.next (d.want id) (d.seed id) d.random)
    return (interest, { d with random })
  | some indices => .ok (indices.find? (d.want id), d)

/-- The first loop of `_request_more`, with at most so many turns -/
def requestLoop (id : Nat) (indices : Option (List (Fin n))) :
    (turns : Nat) → List (Fin n) → Downloader σ n → Except Stop (List (Fin n) × Downloader σ n)
  | 0, lost, d => .ok (lost, d)
  | turns + 1, lost, d => do
    let (interest, d) ← chooseInterest id indices d
    match interest with
    | none => return (lost, d)
    | some i =>
      let (lost, d) ← requestOne t id i lost d
      requestLoop id indices turns lost d

/-- What `_request_more` does with a peer when pieces have no more requests -/
def reconsider (lost : List (Fin n)) (d : Downloader σ n) (id : Nat) : Except Stop (Downloader σ n) :=
  let p := d.peers id
  if !p.activeRequests.isEmpty || !p.interested then .ok d
  else if p.exampleInterest.any d.storage.doIHaveRequests then .ok d
  else if !lost.any p.have_.get then .ok d
  else do
    let (interest, random) ← raising (d.picker.next (d.want id) (d.seed id) d.random)
    let d := { d with random }
    match interest with
    | none => return loseInterest id d
    | some i => return setPeer id { d.peers id with exampleInterest := some i } d

def reconsiderAll (lost : List (Fin n)) (d : Downloader σ n) : Except Stop (Downloader σ n) :=
  if lost.isEmpty then .ok d else d.downloads.foldlM (reconsider lost) d

/-- The end of `_request_more` -/
def enterEndgame (d : Downloader σ n) : Downloader σ n :=
  if d.storage.endgame then
    let d := { d with allRequests := d.downloads.flatMap fun id => (d.peers id).activeRequests }
    d.downloads.foldl (fun d id => fixDownloadEndgame id d) d
  else d

/-- `_request_more` -/
def requestMore (id : Nat) (indices : Option (List (Fin n))) (d : Downloader σ n) : Except Stop (Downloader σ n) :=
  if (d.peers id).choked then .error (.raised .assertionError)
  else if (d.peers id).activeRequests.length = d.backlog then .ok d
  else if d.storage.endgame then .ok (fixDownloadEndgame id d)
  else do
    let (lost, d) ← requestLoop t id indices (d.backlog - (d.peers id).activeRequests.length) [] d
    let d := if (d.peers id).activeRequests.isEmpty && (d.peers id).interested then loseInterest id d else d
    let d ← reconsiderAll lost d
    return enterEndgame d

/-- Those who do not choke, in a random order, are asked for more. -/
def requestMoreOfAll (indices : List (Fin n)) (d : Downloader σ n) : Except Stop (Downloader σ n) :=
  let (ds, random) := Random.shuffle (d.downloads.filter fun id => !(d.peers id).choked) d.random
  ds.foldlM (fun d id => requestMore t id (some indices) d) { d with random }

/-- The interest of a choking peer in pieces that can be requested again -/
def regainInterest (lost : List (Fin n)) (d : Downloader σ n) (id : Nat) : Downloader σ n :=
  if (d.peers id).choked && !(d.peers id).interested && lost.any (d.want id) then interest id d else d

/-- The requests of a peer are given back, and the pieces of which they were are listed. -/
def giveBack (rs : List (Request n)) (d : Downloader σ n) : Except Stop (List (Fin n) × Downloader σ n) := do
  let storage ← rs.foldlM (fun sw r => requestLost r.1 r.2.1 r.2.2 sw) d.storage
  return (rs.foldl (fun lost r => if lost.contains r.1 then lost else lost ++ [r.1]) [], { d with storage })

/-- `_letgo` -/
def letgo (id : Nat) (d : Downloader σ n) : Except Stop (Downloader σ n) :=
  if (d.peers id).activeRequests.isEmpty then .ok d
  else if d.storage.endgame then .ok (setPeer id { d.peers id with activeRequests := [] } d)
  else do
    let (lost, d) ← giveBack (d.peers id).activeRequests d
    let d ← requestMoreOfAll t lost (setPeer id { d.peers id with activeRequests := [] } d)
    return d.downloads.foldl (regainInterest lost) d

def gotChoke (id : Nat) (d : Downloader σ n) : Except Stop (Downloader σ n) :=
  if (d.peers id).choked then .ok d else letgo t id (setPeer id { d.peers id with choked := true } d)

def gotUnchoke (id : Nat) (d : Downloader σ n) : Except Stop (Downloader σ n) :=
  if (d.peers id).choked then
    let d := setPeer id { d.peers id with choked := false } d
    if (d.peers id).interested then requestMore t id none d else .ok d
  else .ok d

def disconnected (id : Nat) (d : Downloader σ n) : Except Stop (Downloader σ n) :=
  if id ∈ d.downloads then
    let (picker, random) := PiecePicker.lostHaves (d.peers id).have_.get d.picker d.random
    letgo t id { d with downloads := d.downloads.erase id, picker, random }
  else .error (.raised .valueError)

/-- `connection.close()`. The first time it ends in a call of `disconnected`. -/
def close (id : Nat) (d : Downloader σ n) : Except Stop (Downloader σ n) :=
  if id ∈ d.downloads then disconnected t id d else .ok d

/-- The loop of `got_piece` over the requests of a piece that was rejected, with at most so many turns -/
def requestAgain (index : Fin n) : (turns : Nat) → Downloader σ n → Except Stop (Downloader σ n)
  | 0, d => .ok d
  | turns + 1, d =>
    if d.storage.doIHaveRequests index then do
      let (r, storage) ← newRequest t index d.storage
      requestAgain index turns { d with storage, allRequests := d.allRequests ++ [(index, r)] }
    else .ok d

/-- What `got_piece` does with another peer in the endgame -/
def cancelAt (id : Nat) (r : Request n) (d : Downloader σ n) (other : Nat) : Downloader σ n :=
  if other ≠ id ∧ (d.peers other).interested then
    if (d.peers other).choked then fixDownloadEndgame other d
    else if r ∈ (d.peers other).activeRequests then
      fixDownloadEndgame other (send other (.cancel r) (dropRequest other r d))
    else d
  else d

/-- What `got_piece` does with a piece that was rejected -/
def rejected (index : Fin n) (d : Downloader σ n) : Except Stop (Downloader σ n) :=
  if d.storage.endgame then do
    let d ← requestAgain t index (blocks t index).length d
    return d.downloads.foldl (fun d id => fixDownloadEndgame id d) d
  else do
    let picker ← raising (d.picker.bump index)
    requestMoreOfAll t [index] { d with picker }

/-- A piece that has come in is complete. -/
def completePiece (index : Fin n) (d : Downloader σ n) : Except Stop (Downloader σ n) :=
  if d.storage.have_ index then do
    let picker ← raising (d.picker.complete index)
    return { d with picker }
  else .ok d

/-- Those who have everything are left when everything is there. -/
def closeSeeds (d : Downloader σ n) : Except Stop (Downloader σ n) :=
  if d.picker.amIComplete then (d.downloads.filter d.seed).foldlM (fun d id => close t id d) d else .ok d

/-- What `got_piece` does with a block that is good so far -/
def accepted (id : Nat) (r : Request n) (d : Downloader σ n) : Except Stop (Bool × Downloader σ n) := do
  let d ← completePiece r.1 d
  let d := if d.storage.endgame then d.downloads.foldl (cancelAt id r) d else d
  let d ← requestMore t id none d
  let d ← closeSeeds t d
  return (d.storage.have_ r.1, d)

/-- A request that has been answered is taken out of `active_requests`, and in the endgame out of `all_requests`. -/
def takeRequest (id : Nat) (r : Request n) (d : Downloader σ n) : Except Stop (Downloader σ n) :=
  if d.storage.endgame then
    if r ∈ d.allRequests then .ok { dropRequest id r d with allRequests := d.allRequests.erase r }
    else .error (.raised .valueError)
  else .ok (dropRequest id r d)

def gotPiece (id : Nat) (index : Fin n) (begin : Nat) (piece : Bytes) (d : Downloader σ n) :
    Except Stop (Bool × Downloader σ n) :=
  let r : Request n := (index, begin, piece.length)
  if r ∈ (d.peers id).activeRequests then do
    let d ← takeRequest id r d
    let (good, calls, storage) ← pieceCameIn b t index begin piece d.storage
    let d := { d with storage, calls := d.calls ++ calls }
    if good then accepted t id r d
    else do
      let d ← rejected t index d
      return (false, d)
  else .ok (false, d)

def gotHave (id : Nat) (index : Fin n) (d : Downloader σ n) : Except Stop (Downloader σ n) :=
  let p := d.peers id
  if p.have_.get index then .ok d
  else
    let (picker, random) := d.picker.gotHave index d.random
    let d := setPeer id { p with have_ := p.have_.set index true } { d with picker, random }
    if d.picker.amIComplete && d.seed id then close t id d
    else if d.storage.endgame then .ok (fixDownloadEndgame id d)
    else if d.storage.doIHaveRequests index then
      if !p.choked then requestMore t id (some [index]) d
      else if !p.interested then .ok (interest id d) else .ok d
    else .ok d

def gotHaveBitfield (id : Nat) (have_ : Bitfield n) (d : Downloader σ n) : Except Stop (Downloader σ n) :=
  let (picker, random) := PiecePicker.gotHaves have_.get d.picker d.random
  let d := setPeer id { d.peers id with have_ } { d with picker, random }
  if d.picker.amIComplete && d.seed id then close t id d
  else if d.storage.endgame && d.allRequests.any fun r => have_.get r.1 then .ok (interest id d)
  else if (List.finRange n).any (d.want id) then .ok (interest id d)
  else .ok d

def makeDownload (id : Nat) (d : Downloader σ n) : Downloader σ n :=
  setPeer id { choked := true, interested := false, activeRequests := [], have_ := .empty n, exampleInterest := none }
    { d with downloads := d.downloads ++ [id] }

end Downloader

end Swinst.BitTorrent
