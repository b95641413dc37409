import Swinst.Data.Loops
import Swinst.Data.PyText
import Swinst.Data.Random
import Swinst.Data.Runs
import Mathlib.Data.Fintype.Card
import Mathlib.Data.List.FinRange
import Mathlib.Logic.Function.Basic

/-! `PiecePicker` of `bittorrent/PiecePicker.py`: which piece is asked for next. The pieces that are missing are kept
in lists by the number of peers that have them. -/

namespace Swinst.BitTorrent

open Function (update update_self update_of_ne)

structure PiecePicker (n : Nat) where
  rarestFirstCutoff : Nat
  interests : List (List (Fin n))
  posInInterests : Fin n → Nat
  numinterests : Fin n → Option Nat
  started : List (Fin n)
  seedstarted : List (Fin n)
  numgot : Nat
  scrambled : List (Fin n)

namespace PiecePicker

variable {n : Nat}

/-- `__init__` -/
def init (rarestFirstCutoff : Nat) (g : Random) : PiecePicker n × Random :=
  let (scrambled, g) := Random.shuffle (List.finRange n) g
  ({ rarestFirstCutoff, interests := [List.finRange n], posInInterests := fun i => i, numinterests := fun _ => some 0,
     started := [], seedstarted := [], numgot := 0, scrambled }, g)

/-- The list of the missing pieces that `k` peers have -/
def bucket (p : PiecePicker n) (k : Nat) : List (Fin n) := p.interests.getD k []

/-- The last item of a list replaces an item: `l[p] = l[-1]`, `pos_in_interests[l[-1]] = p`, `del l[-1]`. -/
def takeOut (piece : Fin n) (k : Nat) (p : PiecePicker n) : PiecePicker n :=
  let l := p.bucket k
  let pos := p.posInInterests piece
  let last := l.getLastD piece
  { p with
    interests := p.interests.set k (l.set pos last).dropLast
    posInInterests := update p.posInInterests last pos }

/-- A piece gets a random place in a list. -/
def putIn (piece : Fin n) (k : Nat) (p : PiecePicker n) (g : Random) : PiecePicker n × Random :=
  let l := p.bucket k
  let (newp, g) := g.below (l.length + 1)
  match l[newp]? with
  | none =>
    ({ p with
      interests := p.interests.set k (l ++ [piece])
      posInInterests := update p.posInInterests piece l.length }, g)
  | some old =>
    ({ p with
      interests := p.interests.set k ((l ++ [old]).set newp piece)
      posInInterests := update (update p.posInInterests old l.length) piece newp }, g)

/-- `_shift_over`, from the list of `k` to that of `k'` -/
def shiftOver (piece : Fin n) (k k' : Nat) (p : PiecePicker n) (g : Random) : PiecePicker n × Random :=
  putIn piece k' (takeOut piece k p) g

def gotHave (piece : Fin n) (p : PiecePicker n) (g : Random) : PiecePicker n × Random :=
  match p.numinterests piece with
  | none => (p, g)
  | some k =>
    let interests := if k + 1 = p.interests.length then p.interests ++ [[]] else p.interests
    shiftOver piece k (k + 1) { p with interests, numinterests := update p.numinterests piece (some (k + 1)) } g

def lostHave (piece : Fin n) (p : PiecePicker n) (g : Random) : PiecePicker n × Random :=
  match p.numinterests piece with
  | none => (p, g)
  | some 0 => (p, g) -- the number of peers would become -1
  | some (k + 1) => shiftOver piece (k + 1) k { p with numinterests := update p.numinterests piece (some k) } g

/-- `got_have` for all pieces that a peer has -/
def gotHaves (have_ : Fin n → Bool) (p : PiecePicker n) (g : Random) : PiecePicker n × Random :=
  ((List.finRange n).filter have_).foldl (fun p i => gotHave i p.1 p.2) (p, g)

/-- `lost_have` for all pieces that a peer had -/
def lostHaves (have_ : Fin n → Bool) (p : PiecePicker n) (g : Random) : PiecePicker n × Random :=
  ((List.finRange n).filter have_).foldl (fun p i => lostHave i p.1 p.2) (p, g)

def requested (piece : Fin n) (seed : Bool) (p : PiecePicker n) : PiecePicker n :=
  { p with
    started := if p.started.contains piece then p.started else p.started ++ [piece]
    seedstarted := if seed && !p.seedstarted.contains piece then p.seedstarted ++ [piece] else p.seedstarted }

def complete (piece : Fin n) (p : PiecePicker n) : Except PyError (PiecePicker n) :=
  match p.numinterests piece with
  | none => .error .assertionError
  | some k =>
    .ok { takeOut piece k p with
      numgot := p.numgot + 1
      numinterests := update p.numinterests piece none
      started := p.started.erase piece
      seedstarted := if p.started.contains piece then p.seedstarted.erase piece else p.seedstarted }

/-- `x < y`, where `None` is less than every number -/
def lessThan : Option Nat → Option Nat → Bool
  | none, some _ => true
  | some x, some y => x < y
  | _, none => false

/-- One turn of the first loop of `next` -/
def better (p : PiecePicker n) (havefunc : Fin n → Bool) (best : Option (List (Fin n)) × Option Nat) (i : Fin n) :
    Except PyError (Option (List (Fin n)) × Option Nat) :=
  if havefunc i then
    if lessThan (p.numinterests i) best.2 then .ok (some [i], p.numinterests i)
    else if p.numinterests i = best.2 then
      match best.1 with
      | some bests => .ok (some (bests ++ [i]), best.2)
      | none => .error .attributeError
    else .ok best
  else .ok best

def next (p : PiecePicker n) (havefunc : Fin n → Bool) (seed : Bool) (g : Random) :
    Except PyError (Option (Fin n) × Random) := do
  let s := if seed then p.seedstarted else p.started
  let (bests, bestnum) ← s.foldlM (better p havefunc) (none, some (2 ^ 30))
  match bests with
  | some (i :: is) =>
    let (i, g) := Random.choice i is g
    return (some i, g)
  | _ =>
    if p.numgot < p.rarestFirstCutoff then return (p.scrambled.find? havefunc, g)
    else
      let stop := min (bestnum.getD 0) p.interests.length
      return (((p.interests.take stop).drop 1).flatten.find? havefunc, g)

def amIComplete (p : PiecePicker n) : Bool := p.numgot = n

def bump (piece : Fin n) (p : PiecePicker n) : Except PyError (PiecePicker n) :=
  match p.numinterests piece with
  | none => .error .typeError
  | some k =>
    let pos := p.posInInterests piece
    let l := (p.bucket k).eraseIdx pos ++ [piece]
    .ok { p with
      interests := p.interests.set k l
      posInInterests := ((l.drop pos).zipIdx pos).foldl (fun f x => update f x.1 x.2) p.posInInterests }

/-! ## The lists -/

/-- Every piece is in the list of its number, at its position, and nowhere else. -/
def Filed (p : PiecePicker n) (number : Fin n → Option Nat) : Prop :=
  ∀ k q i, (p.bucket k)[q]? = some i ↔ number i = some k ∧ p.posInInterests i = q

variable {p : PiecePicker n} {number : Fin n → Option Nat} {piece : Fin n} {k : Nat} {g : Random}

theorem bucket_lt {q : Nat} {i : Fin n} (h : (p.bucket k)[q]? = some i) : k < p.interests.length := by
  by_contra hle
  rw [bucket, List.getD_eq_getElem?_getD, List.getElem?_eq_none (Nat.le_of_not_lt hle)] at h
  cases h

theorem Filed.lt (h : Filed p number) (hpiece : number piece = some k) : k < p.interests.length :=
  bucket_lt ((h k _ piece).mpr ⟨hpiece, rfl⟩)

theorem getD_set (ls : List (List (Fin n))) (l : List (Fin n)) (k' : Nat) (hk : k < ls.length) :
    (ls.set k l).getD k' [] = if k' = k then l else ls.getD k' [] := by
  rw [List.getD_eq_getElem?_getD, List.getElem?_set]
  by_cases heq : k = k'
  · rw [if_pos heq, if_pos hk, if_pos heq.symm]
    rfl
  · rw [if_neg heq, if_neg (Ne.symm heq), List.getD_eq_getElem?_getD]

theorem bucket_takeOut {last : Fin n} (hk : k < p.interests.length) (hlast : (p.bucket k).getLastD piece = last)
    (k' : Nat) : (takeOut piece k p).bucket k' =
      if k' = k then ((p.bucket k).set (p.posInInterests piece) last).dropLast else p.bucket k' := by
  rw [← hlast]
  exact getD_set _ _ _ hk

theorem Filed.takeOut (h : Filed p number) (hpiece : number piece = some k) :
    Filed (takeOut piece k p) (update number piece none) := by
  have hk := h.lt hpiece
  have hpos := (h k _ piece).mpr ⟨hpiece, rfl⟩
  have hlt := (List.getElem?_eq_some_iff.mp hpos).1
  obtain ⟨last, hlast⟩ : ∃ last, (p.bucket k)[(p.bucket k).length - 1]? = some last :=
    ⟨_, List.getElem?_eq_getElem (by omega)⟩
  have hlastD : (p.bucket k).getLastD piece = last := by
    rw [List.getLastD_eq_getLast?, List.getLast?_eq_getElem?, hlast, Option.getD_some]
  have hlast' := (h k _ last).mp hlast
  have hposs : (PiecePicker.takeOut piece k p).posInInterests = update p.posInInterests last (p.posInInterests piece) := by
    rw [← hlastD]
    rfl
  have hget : ∀ q, ((p.bucket k).set (p.posInInterests piece) last).dropLast[q]? =
      if q < (p.bucket k).length - 1 then if q = p.posInInterests piece then some last else (p.bucket k)[q]?
      else none := by
    intro q
    rw [List.getElem?_dropLast, List.length_set, List.getElem?_set]
    grind
  intro k' q i
  have hfiled := h k' q i
  rw [bucket_takeOut hk hlastD, hposs]
  by_cases hk' : k' = k
  · subst hk'
    have hend := (h k' ((p.bucket k').length - 1) i).mpr
    rw [if_pos rfl, hget]
    simp only [Function.update_apply]
    grind
  · rw [if_neg hk', hfiled]
    simp only [Function.update_apply]
    grind

theorem Filed.putIn (h : Filed p number) (hpiece : number piece = none) (hk : k < p.interests.length) :
    Filed (putIn piece k p g).1 (update number piece (some k)) := by
  have hnot : ∀ {k' q : Nat} {i : Fin n}, (p.bucket k')[q]? = some i → i ≠ piece := by
    rintro k' q i hq rfl
    rw [((h k' q i).mp hq).1] at hpiece
    cases hpiece
  rw [PiecePicker.putIn]
  generalize g.below ((p.bucket k).length + 1) = b
  obtain ⟨newp, g'⟩ := b
  intro k' q i
  have hfiled := h k' q i
  dsimp only
  cases hold : (p.bucket k)[newp]? with
  | none =>
    have hbucket : bucket { p with
        interests := p.interests.set k (p.bucket k ++ [piece])
        posInInterests := update p.posInInterests piece (p.bucket k).length } k' =
        if k' = k then p.bucket k ++ [piece] else p.bucket k' := getD_set _ _ _ hk
    dsimp only
    rw [hbucket]
    by_cases hk' : k' = k
    · subst hk'
      rw [if_pos rfl]
      simp only [Function.update_apply]
      grind
    · rw [if_neg hk', hfiled]
      simp only [Function.update_apply]
      grind
  | some old =>
    have hlt := (List.getElem?_eq_some_iff.mp hold).1
    have hnew := (h k newp old).mp hold
    have hbucket : bucket { p with
        interests := p.interests.set k ((p.bucket k ++ [old]).set newp piece)
        posInInterests := update (update p.posInInterests old (p.bucket k).length) piece newp } k' =
        if k' = k then (p.bucket k ++ [old]).set newp piece else p.bucket k' := getD_set _ _ _ hk
    dsimp only
    rw [hbucket]
    by_cases hk' : k' = k
    · subst hk'
      have hat := h k' newp i
      have hget : ((p.bucket k' ++ [old]).set newp piece)[q]? =
          if q = newp then some piece else if q = (p.bucket k').length then some old else (p.bucket k')[q]? := by
        grind
      rw [if_pos rfl, hget]
      simp only [Function.update_apply]
      grind
    · rw [if_neg hk', hfiled]
      simp only [Function.update_apply]
      grind

/-- The items of a list get their positions, which are counted from `k`. -/
theorem foldl_update_zipIdx {α : Type} [DecidableEq α] {l : List α} (h : l.Nodup) (k : Nat) (f : α → Nat) :
    (∀ (q : Nat) x, l[q]? = some x → (l.zipIdx k).foldl (fun f x => update f x.1 x.2) f x = k + q) ∧
      ∀ x, x ∉ l → (l.zipIdx k).foldl (fun f x => update f x.1 x.2) f x = f x := by
  induction l generalizing k f with
  | nil => exact ⟨fun q x hx => by simp at hx, fun _ _ => rfl⟩
  | cons a l ih =>
    rw [List.nodup_cons] at h
    obtain ⟨hat, hnot⟩ := ih h.2 (k + 1) (update f a k)
    rw [List.zipIdx_cons, List.foldl_cons]
    refine ⟨fun q x hx => ?_, fun x hx => ?_⟩
    · cases q with
      | zero =>
        rw [List.getElem?_cons_zero] at hx
        obtain rfl := Option.some.inj hx
        rw [hnot _ h.1, update_self, Nat.add_zero]
      | succ q =>
        rw [hat q x (by rwa [List.getElem?_cons_succ] at hx)]
        omega
    · rw [List.mem_cons, not_or] at hx
      rw [hnot x hx.2, update_of_ne hx.1]

theorem Filed.nodup (h : Filed p number) (k : Nat) : (p.bucket k).Nodup := by
  rw [List.nodup_iff_getElem?_ne_getElem?]
  intro q q' hlt hlen heq
  have hq := List.getElem?_eq_getElem (hlt.trans hlen)
  have hat := ((h k q _).mp hq).2
  rw [heq] at hq
  have hat' := ((h k q' _).mp hq).2
  omega

theorem Filed.bump {p' : PiecePicker n} (h : Filed p p.numinterests) (hok : bump piece p = .ok p') :
    Filed p' p'.numinterests ∧ p'.numinterests = p.numinterests := by
  rw [PiecePicker.bump] at hok
  split at hok
  · cases hok
  next k hk =>
  obtain rfl := Except.ok.inj hok
  refine ⟨?_, rfl⟩
  have hpos := (h k _ piece).mpr ⟨hk, rfl⟩
  have hlt := (List.getElem?_eq_some_iff.mp hpos).1
  generalize hl : (p.bucket k).eraseIdx (p.posInInterests piece) ++ [piece] = l
  have hperm : l.Perm (p.bucket k) := by
    rw [← hl]
    refine (List.perm_append_comm).trans ?_
    have hat := (List.getElem?_eq_some_iff.mp hpos).2
    have := List.getElem_cons_eraseIdx_perm hlt
    rwa [hat] at this
  have hnodup := hperm.nodup_iff.mpr (h.nodup k)
  obtain ⟨hat, hnot⟩ := foldl_update_zipIdx (hnodup.sublist (List.drop_sublist (p.posInInterests piece) l))
    (p.posInInterests piece) p.posInInterests
  -- up to the old position nothing has moved
  have hfront : ∀ q, q < p.posInInterests piece → l[q]? = (p.bucket k)[q]? := by
    intro q hq
    rw [← hl, List.getElem?_append_left (by rw [List.length_eraseIdx_of_lt hlt]; omega),
      List.getElem?_eraseIdx_of_lt hq]
  generalize (((l.drop (p.posInInterests piece)).zipIdx (p.posInInterests piece)).foldl
    (fun f x => update f x.1 x.2) p.posInInterests) = pos at hat hnot
  have hposs : ∀ q x, l[q]? = some x → pos x = q := by
    intro q x hx
    rcases Nat.lt_or_ge q (p.posInInterests piece) with hq | hq
    · rw [hnot x, ((h k q x).mp (hfront q hq ▸ hx)).2]
      intro hmem
      obtain ⟨j, hj⟩ := List.mem_iff_getElem?.mp hmem
      rw [List.getElem?_drop] at hj
      have := (List.getElem?_inj (List.getElem?_eq_some_iff.mp hx).1 hnodup).mp (hx.trans hj.symm)
      omega
    · rw [hat (q - p.posInInterests piece) x (by rw [List.getElem?_drop, Nat.add_sub_cancel' hq, hx]),
        Nat.add_sub_cancel' hq]
  have hmem : ∀ x, x ∈ l ↔ p.numinterests x = some k := by
    intro x
    rw [hperm.mem_iff, List.mem_iff_getElem?]
    exact ⟨fun ⟨q, hq⟩ => ((h k q x).mp hq).1, fun hx => ⟨_, (h k _ x).mpr ⟨hx, rfl⟩⟩⟩
  intro k' q i
  have hbucket : bucket { p with interests := p.interests.set k l, posInInterests := pos } k' =
      if k' = k then l else p.bucket k' := getD_set _ _ _ (h.lt hk)
  rw [hbucket]
  split
  · next heq =>
    subst heq
    constructor
    · intro hq
      exact ⟨(hmem i).mp (List.mem_iff_getElem?.mpr ⟨q, hq⟩), hposs q i hq⟩
    · rintro ⟨hi, hq⟩
      obtain ⟨q', hq'⟩ := List.mem_iff_getElem?.mp ((hmem i).mpr hi)
      obtain rfl : q' = q := (hposs q' i hq').symm.trans hq
      exact hq'
  · next hne =>
    rw [h k' q i]
    refine and_congr_right fun hi => ?_
    have hout := hnot i fun hdrop =>
      hne (Option.some.inj (hi.symm.trans ((hmem i).mp (List.mem_of_mem_drop hdrop))))
    rw [← hout]

/-! ## What holds of a picker -/

structure Ok (p : PiecePicker n) : Prop where
  filed : Filed p p.numinterests
  missing : ∀ i ∈ p.started, p.numinterests i ≠ none
  started : p.started.Nodup
  seedstarted : p.seedstarted.Nodup
  subset : p.seedstarted ⊆ p.started
  numgot : p.numgot = (Finset.univ.filter fun i => p.numinterests i = none).card
  scrambled : p.scrambled.Perm (List.finRange n)

/-- Nothing but the lists has changed. -/
structure SameProgress (p p' : PiecePicker n) : Prop where
  rarestFirstCutoff : p'.rarestFirstCutoff = p.rarestFirstCutoff
  started : p'.started = p.started
  seedstarted : p'.seedstarted = p.seedstarted
  numgot : p'.numgot = p.numgot
  scrambled : p'.scrambled = p.scrambled

variable {p' : PiecePicker n}

theorem Ok.same (h : Ok p) (hsame : SameProgress p p') (hfiled : Filed p' p'.numinterests)
    (hnone : ∀ i, p'.numinterests i = none ↔ p.numinterests i = none) : Ok p' where
  filed := hfiled
  missing i hi := by
    rw [Ne, hnone]
    exact h.missing i (hsame.started ▸ hi)
  started := hsame.started ▸ h.started
  seedstarted := hsame.seedstarted ▸ h.seedstarted
  subset := by
    rw [hsame.started, hsame.seedstarted]
    exact h.subset
  numgot := by
    rw [hsame.numgot, h.numgot]
    congr 1
    ext i
    simp [hnone]
  scrambled := hsame.scrambled ▸ h.scrambled

theorem init_ok (cutoff : Nat) : Ok (init cutoff g : PiecePicker n × Random).1 where
  filed k q i := by
    cases k with
    | zero =>
      simp only [init, bucket, List.getD_cons_zero]
      rw [List.getElem?_eq_some_iff]
      simp only [List.length_finRange, List.getElem_finRange]
      constructor
      · rintro ⟨hq, rfl⟩
        simp
      · rintro ⟨-, rfl⟩
        exact ⟨i.isLt, rfl⟩
    | succ k => simp [init, bucket]
  missing i hi := by cases hi
  started := .nil
  seedstarted := .nil
  subset := List.Subset.refl _
  numgot := by simp [init]
  scrambled := Random.shuffle_perm ..

theorem SameProgress.shiftOver (h : SameProgress p' p) (k' : Nat) : SameProgress p' (shiftOver piece k k' p g).1 := by
  rw [PiecePicker.shiftOver, putIn]
  dsimp only
  split <;> exact { h with }

theorem shiftOver_numinterests (k' : Nat) : (shiftOver piece k k' p g).1.numinterests = p.numinterests := by
  rw [shiftOver, putIn]
  dsimp only
  split <;> rfl

theorem Filed.shiftOver (h : Filed p number) (hpiece : number piece = some k) {k' : Nat}
    (hk' : k' < p.interests.length) : Filed (shiftOver piece k k' p g).1 (update number piece (some k')) := by
  have hput := (h.takeOut hpiece).putIn (g := g) (k := k') (update_self ..) (by
    rw [PiecePicker.takeOut, List.length_set]
    exact hk')
  rwa [Function.update_idem] at hput

theorem Ok.moved (h : Ok p) (hpiece : p.numinterests piece = some k) (k' : Nat) {interests : List (List (Fin n))}
    (hbucket : ∀ j, interests.getD j [] = p.bucket j) (hk' : k' < interests.length) {q : PiecePicker n}
    (hq : q = (shiftOver piece k k'
      { p with interests, numinterests := update p.numinterests piece (some k') } g).1) :
    Ok q ∧ SameProgress p q ∧ q.numinterests = update p.numinterests piece (some k') := by
  have hsame : SameProgress p q := by
    rw [hq]
    refine SameProgress.shiftOver ?_ k'
    exact ⟨rfl, rfl, rfl, rfl, rfl⟩
  have hnum : q.numinterests = update p.numinterests piece (some k') := by
    rw [hq]
    exact shiftOver_numinterests k'
  have hfiled : Filed { p with interests, numinterests := update p.numinterests piece (some k') } p.numinterests :=
    fun j q i => by
      rw [bucket, hbucket]
      exact h.filed j q i
  refine ⟨h.same hsame ?_ fun i => ?_, hsame, hnum⟩
  · rw [hnum, hq]
    exact hfiled.shiftOver hpiece hk'
  · rw [hnum]
    by_cases hi : i = piece
    · subst hi
      simp [hpiece]
    · rw [update_of_ne hi]

theorem gotHave_ok (h : Ok p) (piece : Fin n) (g : Random) : Ok (gotHave piece p g).1 ∧ SameProgress p (gotHave piece p g).1 ∧
    (gotHave piece p g).1.numinterests = update p.numinterests piece ((p.numinterests piece).map (· + 1)) := by
  rw [gotHave]
  cases hk : p.numinterests piece with
  | none =>
    refine ⟨h, ⟨rfl, rfl, rfl, rfl, rfl⟩, ?_⟩
    change p.numinterests = _
    rw [Option.map_none, ← hk, Function.update_eq_self]
  | some k =>
    have hlt := h.filed.lt hk
    refine h.moved hk (k + 1) (fun j => ?_) ?_ rfl
    · split
      · rw [bucket, List.getD_eq_getElem?_getD, List.getD_eq_getElem?_getD, List.getElem?_append]
        split
        · rfl
        · next hge =>
          rw [List.getElem?_eq_none (Nat.le_of_not_lt hge)]
          cases j - p.interests.length <;> rfl
      · rfl
    · split
      · rw [List.length_append, List.length_singleton]
        omega
      · omega

theorem lostHave_ok (h : Ok p) (hpiece : p.numinterests piece ≠ some 0) : Ok (lostHave piece p g).1 ∧
    SameProgress p (lostHave piece p g).1 ∧
    (lostHave piece p g).1.numinterests = update p.numinterests piece ((p.numinterests piece).map (· - 1)) := by
  rw [lostHave]
  cases hk : p.numinterests piece with
  | none =>
    refine ⟨h, ⟨rfl, rfl, rfl, rfl, rfl⟩, ?_⟩
    change p.numinterests = _
    rw [Option.map_none, ← hk, Function.update_eq_self]
  | some k =>
    cases k with
    | zero => exact absurd hk hpiece
    | succ k =>
      exact h.moved hk k (fun _ => rfl) ((Nat.lt_succ_self k).trans (h.filed.lt hk)) rfl

theorem SameProgress.trans {p₁ p₂ p₃ : PiecePicker n} (h : SameProgress p₁ p₂) (h' : SameProgress p₂ p₃) :
    SameProgress p₁ p₃ where
  rarestFirstCutoff := h'.rarestFirstCutoff.trans h.rarestFirstCutoff
  started := h'.started.trans h.started
  seedstarted := h'.seedstarted.trans h.seedstarted
  numgot := h'.numgot.trans h.numgot
  scrambled := h'.scrambled.trans h.scrambled

/-- An operation that counts for one piece, for several pieces -/
theorem foldl_ok {f : Fin n → PiecePicker n → Random → PiecePicker n × Random} {change : Nat → Nat} {l : List (Fin n)}
    (hf : ∀ i ∈ l, ∀ q g, Ok q → q.numinterests i = p.numinterests i → Ok (f i q g).1 ∧ SameProgress q (f i q g).1 ∧
      (f i q g).1.numinterests = update q.numinterests i ((q.numinterests i).map change))
    (h : Ok p) (hnodup : l.Nodup) : Ok (l.foldl (fun p i => f i p.1 p.2) (p, g)).1 ∧
      SameProgress p (l.foldl (fun p i => f i p.1 p.2) (p, g)).1 ∧
      ∀ i, (l.foldl (fun p i => f i p.1 p.2) (p, g)).1.numinterests i =
        if i ∈ l then (p.numinterests i).map change else p.numinterests i := by
  refine Loops.foldl_done (fun done (q : PiecePicker n × Random) => Ok q.1 ∧ SameProgress p q.1 ∧ ∀ i, q.1.numinterests i =
    if i ∈ done then (p.numinterests i).map change else p.numinterests i) (fun done i rest q hl hq => ?_)
    ⟨h, ⟨rfl, rfl, rfl, rfl, rfl⟩, fun i => (if_neg List.not_mem_nil).symm⟩
  obtain ⟨hok, hsame, hnum⟩ := hq
  have hi : i ∉ done := by
    rw [hl, List.nodup_append] at hnodup
    exact fun hmem => hnodup.2.2 i hmem i List.mem_cons_self rfl
  have hqi : q.1.numinterests i = p.numinterests i := (hnum i).trans (if_neg hi)
  obtain ⟨hok', hsame', hnum'⟩ := hf i (hl ▸ List.mem_append_right _ List.mem_cons_self) q.1 q.2 hok hqi
  refine ⟨hok', hsame.trans hsame', fun j => ?_⟩
  rw [hnum']
  by_cases hj : j = i
  · rw [hj, update_self, hqi, if_pos (List.mem_append_right _ (List.mem_singleton_self i))]
  · rw [update_of_ne hj, hnum]
    simp [hj]

theorem mem_filter_finRange (f : Fin n → Bool) (i : Fin n) : i ∈ (List.finRange n).filter f ↔ f i = true := by
  rw [List.mem_filter]
  exact and_iff_right (List.mem_finRange i)

theorem gotHaves_ok (h : Ok p) (have_ : Fin n → Bool) : Ok (gotHaves have_ p g).1 ∧
    SameProgress p (gotHaves have_ p g).1 ∧ ∀ i, (gotHaves have_ p g).1.numinterests i =
      if have_ i then (p.numinterests i).map (· + 1) else p.numinterests i := by
  obtain ⟨hok, hsame, hnum⟩ := foldl_ok (g := g) (f := gotHave) (fun i _ _ g hq _ => gotHave_ok hq i g) h
    ((List.nodup_finRange n).filter have_)
  refine ⟨hok, hsame, fun i => (hnum i).trans ?_⟩
  simp only [mem_filter_finRange]

theorem lostHaves_ok (h : Ok p) {have_ : Fin n → Bool} (hpos : ∀ i, have_ i = true → p.numinterests i ≠ some 0) :
    Ok (lostHaves have_ p g).1 ∧ SameProgress p (lostHaves have_ p g).1 ∧
      ∀ i, (lostHaves have_ p g).1.numinterests i =
        if have_ i then (p.numinterests i).map (· - 1) else p.numinterests i := by
  obtain ⟨hok, hsame, hnum⟩ := foldl_ok (g := g) (f := lostHave) (l := (List.finRange n).filter have_)
    (fun i hi _ _ hq heq => lostHave_ok hq (heq ▸ hpos i ((mem_filter_finRange have_ i).mp hi))) h
    ((List.nodup_finRange n).filter have_)
  refine ⟨hok, hsame, fun i => (hnum i).trans ?_⟩
  simp only [mem_filter_finRange]

theorem bump_ok (h : Ok p) (hok : bump piece p = .ok p') : Ok p' ∧ SameProgress p p' ∧
    p'.numinterests = p.numinterests := by
  obtain ⟨hfiled, hnum⟩ := h.filed.bump hok
  have hsame : SameProgress p p' := by
    rw [bump] at hok
    split at hok
    · cases hok
    · obtain rfl := Except.ok.inj hok
      exact ⟨rfl, rfl, rfl, rfl, rfl⟩
  exact ⟨h.same hsame hfiled fun i => by rw [hnum], hsame, hnum⟩

theorem exists_bump (h : p.numinterests piece = some k) : ∃ p', bump piece p = .ok p' := ⟨_, by rw [bump, h]⟩

theorem exists_complete (h : p.numinterests piece = some k) : ∃ p', complete piece p = .ok p' :=
  ⟨_, by rw [complete, h]⟩

theorem requested_ok (h : Ok p) (hpiece : p.numinterests piece ≠ none) (seed : Bool) : Ok (p.requested piece seed) where
  filed := h.filed
  missing i hi := by
    simp only [requested] at hi ⊢
    split at hi
    · exact h.missing i hi
    · rcases List.mem_append.mp hi with hi | hi
      · exact h.missing i hi
      · rwa [List.mem_singleton.mp hi]
  started := by
    simp only [requested]
    split
    · exact h.started
    · next hnot => exact h.started.append (List.nodup_singleton _) (by simpa using hnot)
  seedstarted := by
    simp only [requested]
    split
    · next hseed =>
      rw [Bool.and_eq_true] at hseed
      exact h.seedstarted.append (List.nodup_singleton _) (by simpa using hseed.2)
    · exact h.seedstarted
  subset i hi := by
    have hstarted : piece ∈ (p.requested piece seed).started ∧ p.started ⊆ (p.requested piece seed).started := by
      simp only [requested]
      split
      · next hmem => exact ⟨List.contains_iff_mem.mp hmem, List.Subset.refl _⟩
      · simp
    simp only [requested] at hi
    split at hi
    · rcases List.mem_append.mp hi with hi | hi
      · exact hstarted.2 (h.subset hi)
      · rw [List.mem_singleton.mp hi]
        exact hstarted.1
    · exact hstarted.2 (h.subset hi)
  numgot := h.numgot
  scrambled := h.scrambled

theorem complete_ok (h : Ok p) (hok : complete piece p = .ok p') : Ok p' ∧ p.numinterests piece ≠ none ∧
    p'.numinterests = update p.numinterests piece none ∧ p'.numgot = p.numgot + 1 := by
  rw [complete] at hok
  split at hok
  · cases hok
  next k hk =>
  obtain rfl := Except.ok.inj hok
  have hne : p.numinterests piece ≠ none := by simp [hk]
  refine ⟨⟨h.filed.takeOut hk, ?_, h.started.erase _, ?_, ?_, ?_, h.scrambled⟩, hne, rfl, rfl⟩
  · intro i hi
    dsimp only at hi ⊢
    rw [h.started.mem_erase_iff] at hi
    rw [update_of_ne hi.1]
    exact h.missing i hi.2
  · dsimp only
    split
    · exact h.seedstarted.erase _
    · exact h.seedstarted
  · intro i hi
    dsimp only at hi ⊢
    rw [h.started.mem_erase_iff]
    split at hi
    · rw [h.seedstarted.mem_erase_iff] at hi
      exact ⟨hi.1, h.subset hi.2⟩
    · next hnot =>
      refine ⟨?_, h.subset hi⟩
      rintro rfl
      exact hnot (List.contains_iff_mem.mpr (h.subset hi))
  · dsimp only
    have hinsert : (Finset.univ.filter fun i => update p.numinterests piece none i = none) =
        insert piece (Finset.univ.filter fun i => p.numinterests i = none) := by
      ext i
      by_cases hi : i = piece
      · simp [hi]
      · simp [hi]
    rw [hinsert, Finset.card_insert_of_notMem (by simp [hne]), h.numgot]

theorem amIComplete_iff (h : Ok p) : p.amIComplete = true ↔ ∀ i, p.numinterests i = none := by
  rw [amIComplete, decide_eq_true_eq, h.numgot]
  have hcard : Finset.card (Finset.univ : Finset (Fin n)) = n := Finset.card_fin n
  conv_lhs => rhs; rw [← hcard]
  rw [Finset.card_filter_eq_iff]
  simp

/-! ## `next` -/

section Next

variable {havefunc : Fin n → Bool} {s : List (Fin n)}

/-- The rarest of the pieces `s` that are wanted -/
inductive Bests (p : PiecePicker n) (havefunc : Fin n → Bool) (s : List (Fin n)) :
    Option (List (Fin n)) × Option Nat → Prop
  | unwanted : (∀ i ∈ s, havefunc i = false) → Bests p havefunc s (none, some (2 ^ 30))
  | wanted {bests : List (Fin n)} {m : Nat} : bests ≠ [] →
    (∀ i ∈ bests, i ∈ s ∧ havefunc i = true ∧ p.numinterests i = some m) →
    (∀ i ∈ s, havefunc i = true → ∃ k, p.numinterests i = some k ∧ m ≤ k) → Bests p havefunc s (some bests, some m)

theorem Bests.better {best : Option (List (Fin n)) × Option Nat} {i : Fin n} (h : Bests p havefunc s best)
    (hi : p.numinterests i = some k) (hk : k < 2 ^ 30) :
    ∃ best', better p havefunc best i = .ok best' ∧ Bests p havefunc (s ++ [i]) best' := by
  rw [PiecePicker.better, hi]
  by_cases hhave : havefunc i = true
  · rw [if_pos hhave]
    have hnew : ∀ {m}, k < m → (∀ j ∈ s, havefunc j = true → ∃ k', p.numinterests j = some k' ∧ m ≤ k') →
        Bests p havefunc (s ++ [i]) (some [i], some k) := by
      intro m hm hs
      refine .wanted (List.cons_ne_nil _ _) (fun j hj => ?_) fun j hj hwanted => ?_
      · rw [List.mem_singleton.mp hj]
        exact ⟨List.mem_append_right _ (List.mem_singleton_self _), hhave, hi⟩
      · rcases List.mem_append.mp hj with hj | hj
        · obtain ⟨k', hk', hle⟩ := hs j hj hwanted
          exact ⟨k', hk', hm.le.trans hle⟩
        · rw [List.mem_singleton.mp hj]
          exact ⟨k, hi, le_rfl⟩
    cases h with
    | unwanted hs =>
      rw [if_pos (by simpa [lessThan] using hk)]
      refine ⟨_, rfl, hnew hk fun j hj hwanted => ?_⟩
      rw [hs j hj] at hwanted
      cases hwanted
    | @wanted bests m hne hbests hs =>
      by_cases hlt : k < m
      · rw [if_pos (by simpa [lessThan] using hlt)]
        exact ⟨_, rfl, hnew hlt hs⟩
      rw [if_neg (by simpa [lessThan] using hlt)]
      have hs' : ∀ j ∈ s ++ [i], havefunc j = true → ∃ k', p.numinterests j = some k' ∧ m ≤ k' := by
        intro j hj hwanted
        rcases List.mem_append.mp hj with hj | hj
        · exact hs j hj hwanted
        · rw [List.mem_singleton.mp hj]
          exact ⟨k, hi, Nat.le_of_not_lt hlt⟩
      by_cases heq : k = m
      · subst heq
        rw [if_pos rfl]
        refine ⟨_, rfl, .wanted (by simp) (fun j hj => ?_) hs'⟩
        rcases List.mem_append.mp hj with hj | hj
        · obtain ⟨hjs, hrest⟩ := hbests j hj
          exact ⟨List.mem_append_left _ hjs, hrest⟩
        · rw [List.mem_singleton.mp hj]
          exact ⟨List.mem_append_right _ (List.mem_singleton_self _), hhave, hi⟩
      · rw [if_neg (by simpa using heq)]
        refine ⟨_, rfl, .wanted hne (fun j hj => ?_) hs'⟩
        obtain ⟨hjs, hrest⟩ := hbests j hj
        exact ⟨List.mem_append_left _ hjs, hrest⟩
  · rw [if_neg hhave]
    rw [Bool.not_eq_true] at hhave
    refine ⟨best, rfl, ?_⟩
    cases h with
    | unwanted hs =>
      refine .unwanted fun j hj => ?_
      rcases List.mem_append.mp hj with hj | hj
      · exact hs j hj
      · rwa [List.mem_singleton.mp hj]
    | wanted hne hbests hs =>
      refine .wanted hne (fun j hj => ?_) fun j hj hwanted => ?_
      · obtain ⟨hjs, hrest⟩ := hbests j hj
        exact ⟨List.mem_append_left _ hjs, hrest⟩
      · rcases List.mem_append.mp hj with hj | hj
        · exact hs j hj hwanted
        · rw [List.mem_singleton.mp hj, hhave] at hwanted
          cases hwanted

theorem bests_ok (hs : ∀ i ∈ s, ∃ k < 2 ^ 30, p.numinterests i = some k) :
    ∃ best, s.foldlM (better p havefunc) (none, some (2 ^ 30)) = .ok best ∧ Bests p havefunc s best := by
  have hrun : ∀ (done rest : List (Fin n)) best, Bests p havefunc done best →
      (∀ i ∈ rest, ∃ k < 2 ^ 30, p.numinterests i = some k) →
      ∃ best', rest.foldlM (better p havefunc) best = .ok best' ∧ Bests p havefunc (done ++ rest) best' := by
    intro done rest
    induction rest generalizing done with
    | nil =>
      intro best hbest _
      exact ⟨best, rfl, by rwa [List.append_nil]⟩
    | cons i rest ih =>
      intro best hbest hrest
      obtain ⟨k, hk, hi⟩ := hrest i List.mem_cons_self
      obtain ⟨best', hok, hbest'⟩ := hbest.better hi hk
      rw [List.foldlM_cons, hok, bind_ok, List.append_cons]
      exact ih _ best' hbest' fun j hj => hrest j (List.mem_cons_of_mem _ hj)
  exact hrun [] s _ (.unwanted fun i hi => by cases hi) hs

theorem find?_flatten_eq_some {α : Type} {f : α → Bool} {ls : List (List α)} {a : α} (h : ls.flatten.find? f = some a) :
    ∃ (q : Nat) (l : List α), ls[q]? = some l ∧ a ∈ l ∧ f a = true ∧
      ∀ (q' : Nat) (l' : List α), q' < q → ls[q']? = some l' → ∀ x ∈ l', f x = false := by
  induction ls with
  | nil => cases h
  | cons l ls ih =>
    rw [List.flatten_cons, List.find?_append] at h
    cases hl : l.find? f with
    | some b =>
      rw [hl] at h
      obtain rfl := Option.some.inj h
      exact ⟨0, l, rfl, List.mem_of_find?_eq_some hl, List.find?_some hl, fun q' _ hq' => absurd hq' (Nat.not_lt_zero _)⟩
    | none =>
      rw [hl, Option.none_or] at h
      obtain ⟨q, l', hq, hmem, ha, hbefore⟩ := ih h
      refine ⟨q + 1, l', by rwa [List.getElem?_cons_succ], hmem, ha, fun q' l'' hlt hq' x hx => ?_⟩
      cases q' with
      | zero =>
        rw [List.getElem?_cons_zero] at hq'
        rw [← Option.some.inj hq'] at hx
        simpa using List.find?_eq_none.mp hl x hx
      | succ q' =>
        rw [List.getElem?_cons_succ] at hq'
        exact hbefore q' l'' (Nat.lt_of_succ_lt_succ hlt) hq' x hx

/-- What `next` returns: a piece that has been started and that the fewest peers have, at the beginning one at random,
else one that the fewest peers have, but at least one. -/
structure Choice (p : PiecePicker n) (havefunc : Fin n → Bool) (seed : Bool) (r : Option (Fin n)) : Prop where
  wanted : ∀ i, r = some i → havefunc i = true
  started : (∃ i ∈ if seed then p.seedstarted else p.started, havefunc i = true) →
    ∃ i k, r = some i ∧ (i ∈ if seed then p.seedstarted else p.started) ∧ p.numinterests i = some k ∧
      ∀ j ∈ if seed then p.seedstarted else p.started, havefunc j = true → ∃ m, p.numinterests j = some m ∧ k ≤ m
  scrambled : (∀ i ∈ if seed then p.seedstarted else p.started, havefunc i = false) → p.numgot < p.rarestFirstCutoff →
    r = p.scrambled.find? havefunc
  rarest : (∀ i ∈ if seed then p.seedstarted else p.started, havefunc i = false) → p.rarestFirstCutoff ≤ p.numgot →
    ∀ j m, havefunc j = true → p.numinterests j = some m → 0 < m →
      ∃ i k, r = some i ∧ p.numinterests i = some k ∧ 0 < k ∧ k ≤ m

theorem next_ok (h : Ok p) (hbound : ∀ i k, p.numinterests i = some k → k < 2 ^ 30) (havefunc : Fin n → Bool)
    (seed : Bool) (g : Random) : ∃ r g', next p havefunc seed g = .ok (r, g') ∧ Choice p havefunc seed r := by
  have hmissing : ∀ i ∈ if seed then p.seedstarted else p.started, ∃ k < 2 ^ 30, p.numinterests i = some k := by
    intro i hi
    have hi' : i ∈ p.started := by
      split at hi
      · exact h.subset hi
      · exact hi
    obtain ⟨k, hk⟩ := Option.ne_none_iff_exists'.mp (h.missing i hi')
    exact ⟨k, hbound i k hk, hk⟩
  obtain ⟨best, hok, hbest⟩ := bests_ok hmissing
  rw [next]
  dsimp only
  rw [hok, bind_ok]
  cases hbest with
  | @wanted bests m hne hbests hs =>
    obtain ⟨i, is, rfl⟩ := List.exists_cons_of_ne_nil hne
    obtain ⟨hmem, hwanted, hnum⟩ := hbests _ (Random.choice_mem i is g)
    refine ⟨_, _, rfl, ?_, ?_, fun hnone => ?_, fun hnone => ?_⟩
    · intro j hj
      rwa [← Option.some.inj hj]
    · exact fun _ => ⟨_, m, rfl, hmem, hnum, hs⟩
    · rw [hnone _ hmem] at hwanted
      cases hwanted
    · rw [hnone _ hmem] at hwanted
      cases hwanted
  | unwanted hs =>
    have hnot : ¬ ∃ i ∈ if seed then p.seedstarted else p.started, havefunc i = true := by
      rintro ⟨i, hi, hwanted⟩
      rw [hs i hi] at hwanted
      cases hwanted
    dsimp only
    split
    · next hcutoff =>
      refine ⟨_, _, rfl, fun i hi => List.find?_some hi, fun hex => absurd hex hnot, fun _ _ => rfl, fun _ hle => ?_⟩
      omega
    · next hcutoff =>
      refine ⟨_, _, rfl, fun i hi => List.find?_some hi, fun hex => absurd hex hnot,
        fun _ hlt => absurd hlt hcutoff, fun _ _ j m hj hm hpos => ?_⟩
      rw [Option.getD_some]
      generalize hls : (p.interests.take (min (2 ^ 30) p.interests.length)).drop 1 = ls
      have hget : ∀ q, q + 1 < 2 ^ 30 → ls[q]? = p.interests[q + 1]? := by
        intro q hq
        rw [← hls, List.getElem?_drop, List.getElem?_take, Nat.add_comm]
        split
        · rfl
        · exact (List.getElem?_eq_none (by omega)).symm
      obtain ⟨q, rfl⟩ := Nat.exists_eq_succ_of_ne_zero hpos.ne'
      have hjm := (h.filed (q + 1) _ j).mpr ⟨hm, rfl⟩
      obtain ⟨l, hl⟩ : ∃ l, p.interests[q + 1]? = some l := ⟨_, List.getElem?_eq_getElem (bucket_lt hjm)⟩
      have hbucket : ∀ {q l}, p.interests[q]? = some l → p.bucket q = l := by
        intro q l hl
        rw [bucket, List.getD_eq_getElem?_getD, hl, Option.getD_some]
      rw [hbucket hl] at hjm
      have hlq : ls[q]? = some l := (hget q (hbound j _ hm)).trans hl
      cases hfind : ls.flatten.find? havefunc with
      | none =>
        have := List.find?_eq_none.mp hfind j
          (List.mem_flatten.mpr ⟨l, List.mem_iff_getElem?.mpr ⟨q, hlq⟩, List.mem_iff_getElem?.mpr ⟨_, hjm⟩⟩)
        exact absurd hj this
      | some i =>
        obtain ⟨q', l', hq', hmem, -, hbefore⟩ := find?_flatten_eq_some hfind
        have hle : q' ≤ q := by
          by_contra hlt
          have := hbefore q l (by omega) hlq j (List.mem_iff_getElem?.mpr ⟨_, hjm⟩)
          rw [this] at hj
          cases hj
        obtain ⟨pos, hpos'⟩ := List.mem_iff_getElem?.mp hmem
        have hq₁ := hbound j _ hm
        rw [hget q' (by omega)] at hq'
        rw [← hbucket hq'] at hpos'
        exact ⟨i, q' + 1, rfl, ((h.filed _ _ _).mp hpos').1, Nat.succ_pos _, by omega⟩

end Next

/-! ## Runs -/

inductive Op (n : Nat)
  | gotHave (piece : Fin n)
  | lostHave (piece : Fin n)
  | requested (piece : Fin n) (seed : Bool)
  | complete (piece : Fin n)
  | bump (piece : Fin n)
  deriving DecidableEq

/-- An operation that is allowed: a piece is lost that was there, and requested while it is missing. -/
inductive Step : PiecePicker n → Op n → PiecePicker n → Prop
  | gotHave {p : PiecePicker n} (piece : Fin n) (g : Random) : Step p (.gotHave piece) (gotHave piece p g).1
  | lostHave {p : PiecePicker n} (piece : Fin n) (g : Random) : p.numinterests piece ≠ some 0 →
    Step p (.lostHave piece) (lostHave piece p g).1
  | requested {p : PiecePicker n} (piece : Fin n) (seed : Bool) : p.numinterests piece ≠ none →
    Step p (.requested piece seed) (p.requested piece seed)
  | complete {p p' : PiecePicker n} (piece : Fin n) : complete piece p = .ok p' → Step p (.complete piece) p'
  | bump {p p' : PiecePicker n} (piece : Fin n) : bump piece p = .ok p' → Step p (.bump piece) p'

/-- The number of a missing piece is the balance of what has come and what was lost. -/
def Balanced (p : PiecePicker n) (es : List (Op n)) : Prop :=
  ∀ i, (p.numinterests i = none ∧ .complete i ∈ es) ∨ (.complete i ∉ es ∧
    ∃ k, p.numinterests i = some k ∧ k + es.count (.lostHave i) = es.count (.gotHave i))

variable {e : Op n} {es : List (Op n)}

theorem Balanced.other (h : Balanced p es) (hgot : ∀ i, e ≠ .gotHave i) (hlost : ∀ i, e ≠ .lostHave i)
    (hcomplete : ∀ i, e ≠ .complete i) (hnum : p'.numinterests = p.numinterests) : Balanced p' (es ++ [e]) := by
  intro i
  rw [hnum, List.count_append, List.count_append, List.count_singleton, List.count_singleton]
  simpa [Ne.symm (hcomplete i), hgot i, hlost i] using h i

theorem Step.ok (h : Ok p) (hbalanced : Balanced p es) (hstep : Step p e p') : Ok p' ∧ Balanced p' (es ++ [e]) := by
  cases hstep with
  | gotHave piece g =>
    obtain ⟨hok, -, hnum⟩ := gotHave_ok h piece g
    refine ⟨hok, fun i => ?_⟩
    rw [hnum, List.count_append, List.count_append, List.count_singleton, List.count_singleton]
    by_cases hi : i = piece
    · subst hi
      rcases hbalanced i with ⟨hnone, hmem⟩ | ⟨hmem, k, hk, hcount⟩
      · simp [hnone, hmem]
      · right
        simp [hk, hmem]
        omega
    · simpa [update_of_ne hi, Ne.symm hi] using hbalanced i
  | lostHave piece g hpiece =>
    obtain ⟨hok, -, hnum⟩ := lostHave_ok (g := g) h hpiece
    refine ⟨hok, fun i => ?_⟩
    rw [hnum, List.count_append, List.count_append, List.count_singleton, List.count_singleton]
    by_cases hi : i = piece
    · subst hi
      rcases hbalanced i with ⟨hnone, hmem⟩ | ⟨hmem, k, hk, hcount⟩
      · simp [hnone, hmem]
      · right
        have hpos : k ≠ 0 := by
          rintro rfl
          exact hpiece hk
        simp [hk, hmem]
        omega
    · simpa [update_of_ne hi, Ne.symm hi] using hbalanced i
  | requested piece seed hpiece =>
    exact ⟨requested_ok h hpiece seed, hbalanced.other (by simp) (by simp) (by simp) rfl⟩
  | complete piece hok =>
    obtain ⟨hok, -, hnum, -⟩ := complete_ok h hok
    refine ⟨hok, fun i => ?_⟩
    rw [hnum, List.count_append, List.count_append, List.count_singleton, List.count_singleton]
    by_cases hi : i = piece
    · subst hi
      simp
    · simpa [update_of_ne hi, hi] using hbalanced i
  | bump piece hok =>
    obtain ⟨hok, -, hnum⟩ := bump_ok h hok
    exact ⟨hok, hbalanced.other (by simp) (by simp) (by simp) hnum⟩

theorem Ok.run {cutoff : Nat} (hrun : Runs Step (init cutoff g : PiecePicker n × Random).1 es p) :
    Ok p ∧ Balanced p es :=
  hrun.preserve_history (P := fun p es => Ok p ∧ Balanced p es) (fun _ _ _ _ h hstep => hstep.ok h.1 h.2)
    ⟨init_ok cutoff, fun _ => .inr ⟨List.not_mem_nil, 0, rfl, rfl⟩⟩

/-- Whatever has happened, the lists hold the missing pieces by the number of peers that have them. -/
theorem filed_run {cutoff : Nat} (hrun : Runs Step (init cutoff g : PiecePicker n × Random).1 es p) (k : Nat)
    (i : Fin n) : (p.bucket k).Nodup ∧
      (i ∈ p.bucket k ↔ .complete i ∉ es ∧ k + es.count (.lostHave i) = es.count (.gotHave i)) := by
  obtain ⟨h, hbalanced⟩ := Ok.run hrun
  refine ⟨h.filed.nodup k, ?_⟩
  have hmem : i ∈ p.bucket k ↔ p.numinterests i = some k := by
    rw [List.mem_iff_getElem?]
    exact ⟨fun ⟨q, hq⟩ => ((h.filed k q i).mp hq).1, fun hi => ⟨_, (h.filed k _ i).mpr ⟨hi, rfl⟩⟩⟩
  rw [hmem]
  rcases hbalanced i with ⟨hnone, hcomplete⟩ | ⟨hcomplete, k', hk', hcount⟩
  · simp [hnone, hcomplete]
  · rw [hk', Option.some.injEq]
    refine ⟨?_, fun hk => ?_⟩
    · rintro rfl
      exact ⟨hcomplete, hcount⟩
    · omega

private def draws : Random := ⟨fun _ => 0, 0⟩

/-- Something of everything: the piece 0 is completed, and a peer with the piece 1 goes. -/
private def sampleOps : List (Op 4) :=
  [.gotHave 0, .gotHave 1, .gotHave 1, .gotHave 2, .lostHave 1, .requested 1 false, .requested 2 true, .bump 2, .complete 0]

private theorem exists_sampleOps : ∃ p, Runs Step (init 1 draws : PiecePicker 4 × Random).1 sampleOps p :=
  ⟨_, .cons (.gotHave 0 draws) <| .cons (.gotHave 1 draws) <| .cons (.gotHave 1 draws) <| .cons (.gotHave 2 draws) <|
    .cons (.lostHave 1 draws (by decide)) <| .cons (.requested 1 false (by decide)) <|
    .cons (.requested 2 true (by decide)) <| .cons (.bump 2 rfl) <| .cons (.complete 0 rfl) .nil⟩

theorem filed_run_four : ∃ p, Runs Step (init 1 draws : PiecePicker 4 × Random).1 sampleOps p ∧
    (p.bucket 1).Nodup ∧ 1 ∈ p.bucket 1 ∧ 2 ∈ p.bucket 1 ∧ 0 ∉ p.bucket 1 := by
  obtain ⟨p, hrun⟩ := exists_sampleOps
  have h := filed_run hrun 1
  refine ⟨p, hrun, (h 0).1, (h 1).2.mpr (by decide), (h 2).2.mpr (by decide), fun hmem => ?_⟩
  exact ((h 0).2.mp hmem).1 (by decide)

/-- While fewer than `2 ^ 30` peers have a missing piece, `next` returns a right choice. -/
theorem next_run {cutoff : Nat} (hrun : Runs Step (init cutoff g : PiecePicker n × Random).1 es p)
    (hbound : ∀ i, .complete i ∉ es → es.count (.gotHave i) < es.count (.lostHave i) + 2 ^ 30)
    (havefunc : Fin n → Bool) (seed : Bool) (g' : Random) :
    ∃ r g'', next p havefunc seed g' = .ok (r, g'') ∧ Choice p havefunc seed r := by
  obtain ⟨h, hbalanced⟩ := Ok.run hrun
  refine next_ok h (fun i k hk => ?_) havefunc seed g'
  rcases hbalanced i with ⟨hnone, -⟩ | ⟨hcomplete, k', hk', hcount⟩
  · rw [hnone] at hk
    cases hk
  · obtain rfl := Option.some.inj (hk'.symm.trans hk)
    have := hbound i hcomplete
    omega

theorem next_run_four : ∃ p r g', Runs Step (init 1 draws : PiecePicker 4 × Random).1 sampleOps p ∧
    next p (fun i => i ≠ 1) false draws = .ok (r, g') ∧ Choice p (fun i => i ≠ 1) false r := by
  obtain ⟨p, hrun⟩ := exists_sampleOps
  obtain ⟨r, g', hnext⟩ := next_run hrun (by decide) (fun i => i ≠ 1) false draws
  exact ⟨p, r, g', hrun, hnext⟩

end PiecePicker

end Swinst.BitTorrent
