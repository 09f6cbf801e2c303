import Mathlib.Data.List.Nodup
import Perp.HashBounds
import Perp.HashScan

set_option autoImplicit false

/-!
# The end of a search

`find` and the calls of `findnext` after it, over any file: the loops as they run,
with the slots that they probe. Where nothing comes out a loop has not ended within
its fuel, or a byte outside the map was read.
-/
namespace Perp.HashChain
open Pkt ByteImage HashFile CdbFormat HdbFormat HashImage OpenTable
open IoqGet (readOnce)
open HashBounds (mapBytes mapBytes_in)
open HashScan (unpack32_lt visits_one visits_stopped)

/-! ## The loops -/

/-- The loop of `cdb_read()` over `read()` -/
def readLoopRun : ℕ → List UInt8 → ℕ → Calls → Option (Option (List UInt8) × Calls)
  | 0, _, len, c => if len = 0 then some (some [], c) else none
  | fuel + 1, rest, len, c =>
    if len = 0 then some (some [], c)
    else
      match readOnce rest len c.reads with
      | (none, i) => some (none, { c with reads := i.answers, errno := .io })
      | (some data, i) =>
        if data = [] then some (none, { c with reads := i.answers, errno := .eproto })
        else
          (readLoopRun fuel i.rest (len - data.length) { c with reads := i.answers }).map fun r =>
            (r.1.map (data ++ ·), r.2)

/-- `cdb_read()` -/
def dbReadRun (db : Db) (c : Calls) (len offset : ℕ) : Option (Option (List UInt8) × Calls) :=
  if db.mapped then
    if offset ≥ db.file.length ∨ db.file.length - offset < len then
      some (none, { c with errno := .eproto })
    else (mapBytes db.file offset len).map fun buf => (some buf, c)
  else if c.seeks.head? = some true then
    some (none, { c with seeks := c.seeks.tail, errno := .io })
  else readLoopRun len (db.file.drop offset) len { c with seeks := c.seeks.tail }

/-- `cdb_key_match()` -/
def keyMatchRun (db : Db) (key : List UInt8) : ℕ → ℕ → ℕ → Calls → Option (ℤ × Calls)
  | 0, klen, _, c => if klen = 0 then some (1, c) else none
  | fuel + 1, klen, kpos, c =>
    if klen = 0 then some (1, c)
    else
      let n := min keybufSize klen
      (dbReadRun db c n kpos).bind fun
      | (none, c) => some (-1, c)
      | (some kbuf, c) =>
        if key.take n ≠ kbuf then some (0, c)
        else keyMatchRun db key fuel (klen - n) ((kpos + n) % 2 ^ 32) c

variable (F : Format)

def slotMatchRun (db : Db) (c : Calls) (slotHash : UInt32) (rpos : ℕ) : Option (ℤ × ℕ × Calls) :=
  if slotHash ≠ db.h then some (0, 0, c)
  else
    (dbReadRun db c F.hdr rpos).bind fun
    | (none, c) => some (-1, 0, c)
    | (some nbuf, c) =>
      if F.unpack nbuf ≠ db.klen then some (0, 0, c)
      else
        (keyMatchRun db db.key db.klen db.klen ((rpos + F.hdr) % 2 ^ 32) c).map fun r =>
          (r.1, F.unpack (nbuf.drop F.width), r.2)

/-- `cdb_hash_probe()` and the slots it probes -/
def hashProbeRun (db : Db) : ℕ → ℕ → Calls → Option ((ℤ × Db × Calls) × List ℕ)
  | 0, target, c => if target < db.tslots then none else some ((0, db, c), [])
  | fuel + 1, target, c =>
    if target < db.tslots then
      (dbReadRun db c 8 ((db.tbase + target * 8) % 2 ^ 32)).bind fun
      | (none, c) => some ((-1, db, c), [target])
      | (some nbuf, c) =>
        let rpos := unpack32 (nbuf.drop 4)
        if rpos = 0 then some ((0, db, c), [target])
        else
          (slotMatchRun F db c (upak32Unpack nbuf) rpos).bind fun m =>
            if m.1 = -1 then some ((-1, db, m.2.2), [target])
            else if m.1 = 1 then
              some ((1, { db with sN := target, rpos := rpos, dlen := m.2.1 }, m.2.2), [target])
            else
              let t := if target + 1 = db.tslots then 0 else target + 1
              if t = db.s0 then some ((0, db, m.2.2), [target])
              else (hashProbeRun db fuel t m.2.2).map fun r => (r.1, target :: r.2)
    else some ((0, db, c), [])

def probeTableRun (db : Db) (c : Calls) (tbase tslots : ℕ) :
    Option ((ℤ × Db × Calls) × List ℕ) :=
  let db := { db with tbase := tbase, tslots := tslots }
  if tslots = 0 then some ((0, db, c), [])
  else
    let target := F.slot db.h tslots
    hashProbeRun F { db with s0 := target } tslots target c

def findnextRun (db : Db) (c : Calls) : Option ((ℤ × Db × Calls) × List ℕ) :=
  let target := (db.sN + 1) % 2 ^ 32
  let target := if target = db.tslots then 0 else target
  if target = db.s0 then some ((0, db, c), []) else hashProbeRun F db db.tslots target c

def cdbFindRun (db : Db) (c : Calls) (key : List UInt8) : Option ((ℤ × Db × Calls) × List ℕ) :=
  let hash := cdbFormat.hash key
  let db := { db with key := key, klen := key.length, h := hash }
  (dbReadRun db c 8 (cdbNtab hash * 8)).bind fun
  | (none, c) => some ((-1, db, c), [])
  | (some nbuf, c) => probeTableRun cdbFormat db c (unpack32 nbuf) (unpack32 (nbuf.drop 4))

def cdbFindnextRun (db : Db) (c : Calls) : Option ((ℤ × Db × Calls) × List ℕ) :=
  findnextRun cdbFormat db c

def ofDbRun (db : Hdb) (r : (ℤ × Db × Calls) × List ℕ) : (ℤ × Hdb × Calls) × List ℕ :=
  (ofDb db r.1, r.2)

def hdbFindRun (db : Hdb) (c : Calls) (key : List UInt8) : Option ((ℤ × Hdb × Calls) × List ℕ) :=
  if key.length > hdbU24max then some ((-1, db, { c with errno := .erange }), [])
  else
    let hash := hdbFormat.hash key
    let db := { db with key := key, klen := key.length, h := hash }
    let t := db.tndx.getD (hdbNtab hash) ⟨0, 0⟩
    (probeTableRun hdbFormat db.toDb c t.offset t.value).map (ofDbRun db)

def hdbFindnextRun (db : Hdb) (c : Calls) : Option ((ℤ × Hdb × Calls) × List ℕ) :=
  (findnextRun hdbFormat db.toDb c).map (ofDbRun db)

/-- What `visits` says of a chain of calls, and the slots that all of them probe -/
def visitsRun {δ γ : Type} (next : δ → Calls → Option ((ℤ × δ × Calls) × List ℕ)) (cursor : δ → γ) :
    ℕ → (ℤ × δ × Calls) × List ℕ → Option ((List γ × ℤ) × List ℕ)
  | 0, r => some (([], r.1.1), r.2)
  | fuel + 1, r =>
    if r.1.1 = 1 then
      (next r.1.2.1 r.1.2.2).bind fun r' =>
        (visitsRun next cursor fuel r').map fun rest =>
          ((cursor r.1.2.1 :: rest.1.1, rest.1.2), r.2 ++ rest.2)
    else some (([], r.1.1), r.2)

/-- A chain of at most `n` successful calls over a table of `tslots` slots: what it
found and what it returned at last, and the slots it probed. -/
structure WalksOnce (tslots n : ℕ) (v : List ℕ × ℤ) (probed : List ℕ) : Prop where
  few : probed.length ≤ tslots
  distinct : probed.Nodup
  found : v.1.Sublist probed
  once : v.1.Nodup
  ends : tslots < n → v.2 = 0 ∨ v.2 = -1

/-! ## Within their fuel and inside the map -/

section runs
variable {F} {db : Db} {c : Calls} {key rest : List UInt8} {fuel len klen : ℕ}

theorem readLoopRun_eq (hfuel : len ≤ fuel) :
    readLoopRun fuel rest len c = some (readLoop fuel rest len c) := by
  induction fuel generalizing rest len c with
  | zero => exact if_pos (Nat.le_zero.mp hfuel)
  | succ fuel ih =>
    unfold readLoopRun readLoop
    by_cases h0 : len = 0
    · rw [if_pos h0, if_pos h0]
    · rw [if_neg h0, if_neg h0]
      generalize readOnce rest len c.reads = res
      obtain ⟨data, i⟩ := res
      cases data with
      | none => rfl
      | some data =>
        by_cases hnil : data = []
        · simp only [if_pos hnil]
        · have hpos := List.length_pos_iff.mpr hnil
          simp only [if_neg hnil]
          rw [ih (by omega)]
          rfl

theorem dbReadRun_eq (db : Db) (c : Calls) (len off : ℕ) :
    dbReadRun db c len off = some (dbRead db c len off) := by
  unfold dbReadRun dbRead
  by_cases hmap : db.mapped = true
  · rw [if_pos hmap, if_pos hmap]
    by_cases hout : off ≥ db.file.length ∨ db.file.length - off < len
    · rw [if_pos hout, if_pos hout]
    · rw [if_neg hout, if_neg hout, mapBytes_in (by omega)]
      rfl
  · rw [if_neg hmap, if_neg hmap]
    by_cases hseek : c.seeks.head? = some true
    · rw [if_pos hseek, if_pos hseek]
    · rw [if_neg hseek, if_neg hseek]
      exact readLoopRun_eq (Nat.le_refl _)

theorem keyMatchRun_eq {kpos : ℕ} (hfuel : klen ≤ fuel) :
    keyMatchRun db key fuel klen kpos c = some (keyMatch db key fuel klen kpos c) := by
  induction fuel generalizing klen kpos c with
  | zero => exact if_pos (Nat.le_zero.mp hfuel)
  | succ fuel ih =>
    have h80 : 0 < keybufSize := by decide
    unfold keyMatchRun keyMatch
    by_cases h0 : klen = 0
    · rw [if_pos h0, if_pos h0]
    · rw [if_neg h0, if_neg h0]
      simp only [dbReadRun_eq, Option.bind_some]
      generalize dbRead db c (min keybufSize klen) kpos = res
      obtain ⟨kbuf, c'⟩ := res
      cases kbuf with
      | none => rfl
      | some kbuf =>
        simp only
        by_cases hne : key.take (min keybufSize klen) ≠ kbuf
        · rw [if_pos hne, if_pos hne]
        · rw [if_neg hne, if_neg hne]
          exact ih (by omega)

theorem slotMatchRun_eq (db : Db) (c : Calls) (slotHash : UInt32) (rpos : ℕ) :
    slotMatchRun F db c slotHash rpos = some (slotMatch F db c slotHash rpos) := by
  unfold slotMatchRun slotMatch
  by_cases hhash : slotHash ≠ db.h
  · rw [if_pos hhash, if_pos hhash]
  · rw [if_neg hhash, if_neg hhash]
    simp only [dbReadRun_eq, Option.bind_some]
    generalize dbRead db c F.hdr rpos = res
    obtain ⟨nbuf, c'⟩ := res
    cases nbuf with
    | none => rfl
    | some nbuf =>
      simp only
      by_cases hlen : F.unpack nbuf ≠ db.klen
      · rw [if_pos hlen, if_pos hlen]
      · rw [if_neg hlen, if_neg hlen, keyMatchRun_eq (Nat.le_refl _)]
        rfl

end runs

/-! ## Once around -/

section ring
variable {F} {db : Db} {c : Calls} {i j n fuel : ℕ}

/-- The slot `i` from the first on -/
def slotAt (db : Db) (i : ℕ) : ℕ := (db.s0 + i) % db.tslots

/-- The slots from the first on, `j` of them -/
def ring (db : Db) (j : ℕ) : List ℕ := (List.range j).map (slotAt db)

theorem ring_succ (db : Db) (j : ℕ) : ring db (j + 1) = ring db j ++ [slotAt db j] := by
  rw [ring, List.range_succ, List.map_append]
  rfl

theorem ring_length (db : Db) (j : ℕ) : (ring db j).length = j := by
  rw [ring, List.length_map, List.length_range]

theorem ring_nodup (hj : j ≤ db.tslots) : (ring db j).Nodup := by
  apply List.nodup_range.map_on
  intro a ha b hb heq
  rw [List.mem_range] at ha hb
  exact slot_inj (by omega) (by omega) heq

theorem slotAt_lt (hi : i < db.tslots) : slotAt db i < db.tslots := Nat.mod_lt _ (by omega)

theorem next_slotAt (hi : i < db.tslots) : next db.tslots (slotAt db i) = slotAt db (i + 1) := by
  have hlt := next_lt (slotAt_lt hi)
  have hadd := @next_add db.tslots (slotAt db i) 0
  rw [Nat.add_zero, Nat.mod_eq_of_lt hlt] at hadd
  rw [hadd, slotAt, slotAt, Nat.zero_add, Nat.mod_add_mod, Nat.add_assoc]

/-- The way leads back to the first slot after all of them, and not before. -/
theorem slotAt_eq_first (hs0 : db.s0 < db.tslots) (hi : i < db.tslots) :
    slotAt db (i + 1) = db.s0 ↔ i + 1 = db.tslots := by
  constructor
  · intro heq
    by_contra hne
    have hfirst : (db.s0 + (i + 1)) % db.tslots = (db.s0 + 0) % db.tslots :=
      heq.trans (Nat.mod_eq_of_lt hs0).symm
    have := slot_inj (by omega) (by omega) hfirst
    omega
  · intro heq
    rw [slotAt, heq, Nat.add_mod_right, Nat.mod_eq_of_lt hs0]

/-- A probe from the slot `i` of the way ends before the slot `j`: the way goes on
from there. -/
structure Probed (db : Db) (i j : ℕ) (r : ℤ × Db × Calls) (log : List ℕ) : Prop where
  forth : i < j
  within : j ≤ db.tslots
  way : ring db i ++ log = ring db j
  last : slotAt db (j - 1) ∈ log
  result : (r.1 = 0 ∨ r.1 = -1) ∧ r.2.1 = db ∨
    r.1 = 1 ∧ ∃ rpos dlen, r.2.1 = { db with sN := slotAt db (j - 1), rpos := rpos, dlen := dlen }

theorem probed_here (hi : i < db.tslots) {r : ℤ × Db × Calls}
    (hr : (r.1 = 0 ∨ r.1 = -1) ∧ r.2.1 = db ∨
      r.1 = 1 ∧ ∃ rpos dlen, r.2.1 = { db with sN := slotAt db i, rpos := rpos, dlen := dlen }) :
    Probed db i (i + 1) r [slotAt db i] :=
  ⟨Nat.lt_succ_self i, hi, (ring_succ db i).symm, List.mem_singleton_self _, hr⟩

theorem Probed.after {r : ℤ × Db × Calls} {log : List ℕ} (h : Probed db (i + 1) j r log) :
    Probed db i j r (slotAt db i :: log) where
  forth := Nat.lt_of_succ_lt h.forth
  within := h.within
  way := by
    rw [← h.way, ring_succ, List.append_assoc]
    rfl
  last := List.mem_cons_of_mem _ h.last
  result := h.result

theorem hashProbeRun_probed (hs0 : db.s0 < db.tslots) (hi : i < db.tslots)
    (hfuel : db.tslots ≤ fuel + i) (c : Calls) :
    ∃ j log, hashProbeRun F db fuel (slotAt db i) c =
        some (hashProbe F db fuel (slotAt db i) c, log) ∧
      Probed db i j (hashProbe F db fuel (slotAt db i) c) log := by
  induction fuel generalizing i c with
  | zero => omega
  | succ fuel ih =>
    have hlt := slotAt_lt hi
    unfold hashProbeRun hashProbe
    rw [if_pos hlt, if_pos hlt]
    simp only [dbReadRun_eq, Option.bind_some]
    generalize dbRead db c 8 ((db.tbase + slotAt db i * 8) % 2 ^ 32) = res
    obtain ⟨nbuf, c1⟩ := res
    cases nbuf with
    | none => exact ⟨i + 1, _, rfl, probed_here hi (.inl ⟨.inr rfl, rfl⟩)⟩
    | some nbuf =>
      simp only [slotMatchRun_eq, Option.bind_some]
      generalize unpack32 (nbuf.drop 4) = rpos
      generalize slotMatch F db c1 (upak32Unpack nbuf) rpos = m
      by_cases hempty : rpos = 0
      · simp only [if_pos hempty]
        exact ⟨i + 1, _, rfl, probed_here hi (.inl ⟨.inl rfl, rfl⟩)⟩
      · simp only [if_neg hempty]
        by_cases herr : m.1 = -1
        · simp only [if_pos herr]
          exact ⟨i + 1, _, rfl, probed_here hi (.inl ⟨.inr rfl, rfl⟩)⟩
        · by_cases hmatch : m.1 = 1
          · simp only [if_neg herr, if_pos hmatch]
            exact ⟨i + 1, _, rfl, probed_here hi (.inr ⟨rfl, _, _, rfl⟩)⟩
          · have hnext : (if slotAt db i + 1 = db.tslots then 0 else slotAt db i + 1) =
                slotAt db (i + 1) := next_slotAt hi
            simp only [if_neg herr, if_neg hmatch, hnext]
            by_cases hback : slotAt db (i + 1) = db.s0
            · simp only [if_pos hback]
              exact ⟨i + 1, _, rfl, probed_here hi (.inl ⟨.inl rfl, rfl⟩)⟩
            · have hmore := mt (slotAt_eq_first hs0 hi).mpr hback
              obtain ⟨j, log, hrun, hprobed⟩ := @ih (i + 1) (by omega) (by omega) m.2.2
              simp only [if_neg hback, hrun, Option.map_some]
              exact ⟨j, _, rfl, hprobed.after⟩

/-- A call of `cdb_findnext()` after a probe that ended before the slot `j` with a
match: it ends at once when that was the whole way, or it goes on from there. -/
theorem findnextRun_probed (hs0 : db.s0 < db.tslots) (hT : db.tslots < 2 ^ 32) (hj : 0 < j)
    (hjT : j ≤ db.tslots) (hsN : db.sN = slotAt db (j - 1)) (c : Calls) :
    (findnextRun F db c = some (findnext F db c, []) ∧ findnext F db c = (0, db, c)) ∨
      ∃ k log, findnextRun F db c = some (findnext F db c, log) ∧
        Probed db j k (findnext F db c) log := by
  have hlt : slotAt db (j - 1) < db.tslots := slotAt_lt (by omega)
  have hmod : (db.sN + 1) % 2 ^ 32 = slotAt db (j - 1) + 1 := by
    rw [hsN, Nat.mod_eq_of_lt (by omega)]
  have hnext : (if slotAt db (j - 1) + 1 = db.tslots then 0 else slotAt db (j - 1) + 1) =
      slotAt db j := by
    have h := @next_slotAt db (j - 1) (by omega)
    rwa [Nat.sub_add_cancel hj] at h
  have hback : slotAt db j = db.s0 ↔ j = db.tslots := by
    have h := @slotAt_eq_first db (j - 1) hs0 (by omega)
    rwa [Nat.sub_add_cancel hj] at h
  simp only [findnextRun, findnext, hmod, hnext]
  by_cases hall : j = db.tslots
  · rw [if_pos (hback.mpr hall), if_pos (hback.mpr hall)]
    exact .inl ⟨rfl, rfl⟩
  · rw [if_neg (mt hback.mp hall), if_neg (mt hback.mp hall)]
    exact .inr (hashProbeRun_probed hs0 (by omega) (by omega) c)

theorem visitsRun_stopped {δ γ : Type} {next : δ → Calls → Option ((ℤ × δ × Calls) × List ℕ)}
    {cursor : δ → γ} {r : (ℤ × δ × Calls) × List ℕ} (h : r.1.1 ≠ 1) (n : ℕ) :
    visitsRun next cursor n r = some (([], r.1.1), r.2) := by
  cases n with
  | zero => rfl
  | succ n => exact if_neg h

/-- The calls after a match at the slot before `j` go on along the way, and come to
an end on it. -/
theorem visitsRun_way (hs0 : db.s0 < db.tslots) (hT : db.tslots < 2 ^ 32) (hj : 0 < j)
    (hjT : j ≤ db.tslots) (hsN : db.sN = slotAt db (j - 1)) (c : Calls) (seen : List ℕ) (n : ℕ) :
    ∃ k log, j ≤ k ∧ k ≤ db.tslots ∧ ring db j ++ log = ring db k ∧
      visitsRun (findnextRun F) Db.sN n ((1, db, c), seen) =
        some (visits (findnext F) Db.sN n (1, db, c), seen ++ log) ∧
      (visits (findnext F) Db.sN n (1, db, c)).1.Sublist (db.sN :: log) ∧
      (db.tslots < j + n → (visits (findnext F) Db.sN n (1, db, c)).2 = 0 ∨
        (visits (findnext F) Db.sN n (1, db, c)).2 = -1) := by
  induction n generalizing db j c seen with
  | zero =>
    refine ⟨j, [], Nat.le_refl j, hjT, List.append_nil _, ?_, List.nil_sublist _, fun h => by omega⟩
    rw [List.append_nil]
    rfl
  | succ n ih =>
    rw [visits_one, visitsRun, if_pos rfl]
    simp only
    obtain ⟨hrun, hend⟩ | ⟨k, log, hrun, hprobed⟩ :=
      @findnextRun_probed F db j hs0 hT hj hjT hsN c
    · rw [hrun, hend, Option.bind_some, visitsRun_stopped (by simp), visits_stopped (by simp)]
      refine ⟨j, [], Nat.le_refl j, hjT, List.append_nil _, rfl, List.Sublist.refl _, ?_⟩
      exact fun _ => .inl rfl
    · have hjk := hprobed.forth
      rw [hrun, Option.bind_some]
      rcases hprobed.result with ⟨hret, -⟩ | ⟨hret, rpos, dlen, hdb⟩
      · rw [visitsRun_stopped (by simp only; omega), visits_stopped (by omega)]
        refine ⟨k, log, by omega, hprobed.within, hprobed.way, rfl, ?_, fun _ => hret⟩
        exact List.Sublist.cons_cons _ (List.nil_sublist _)
      · generalize findnext F db c = r at hret hdb
        obtain ⟨ret, db', c'⟩ := r
        simp only at hret hdb
        subst hret hdb
        obtain ⟨k', log', hk, hkT, hway, hvisits, hfound, hends⟩ :=
          @ih { db with sN := slotAt db (k - 1), rpos := rpos, dlen := dlen } k hs0 hT (by omega)
            hprobed.within rfl c' log
        have hring : ∀ x, ring { db with sN := slotAt db (k - 1), rpos := rpos, dlen := dlen } x =
          ring db x := fun _ => rfl
        rw [hring, hring, ← hprobed.way, List.append_assoc] at hway
        refine ⟨k', log ++ log', by omega, hkT, hway, ?_, ?_, fun h => hends (by simp only; omega)⟩
        · rw [hvisits]
          rfl
        · apply List.Sublist.cons_cons
          exact hfound.trans ((List.singleton_sublist.mpr hprobed.last).append_right log')

theorem walksOnce_of_ring {k : ℕ} (hk : k ≤ db.tslots) {v : List ℕ × ℤ}
    (hfound : v.1.Sublist (ring db k)) (hends : db.tslots < n → v.2 = 0 ∨ v.2 = -1) :
    WalksOnce db.tslots n v (ring db k) where
  few := by
    rw [ring_length]
    exact hk
  distinct := ring_nodup hk
  found := hfound
  once := hfound.nodup (ring_nodup hk)
  ends := hends

theorem visitsRun_probeTable (db : Db) (c : Calls) (tbase : ℕ) {tslots : ℕ}
    (hT : tslots < 2 ^ 32) (n : ℕ) :
    ∃ probed, ((probeTableRun F db c tbase tslots).bind (visitsRun (findnextRun F) Db.sN n)) =
        some (visits (findnext F) Db.sN n (probeTable F db c tbase tslots), probed) ∧
      WalksOnce tslots n (visits (findnext F) Db.sN n (probeTable F db c tbase tslots)) probed ∧
      (probeTable F db c tbase tslots).2.1.tslots = tslots := by
  unfold probeTableRun probeTable
  by_cases h0 : tslots = 0
  · simp only [if_pos h0, Option.bind_some]
    rw [visitsRun_stopped (by simp), visits_stopped (by simp)]
    exact ⟨[], rfl, ⟨Nat.zero_le _, List.nodup_nil, List.Sublist.refl _, List.nodup_nil,
      fun _ => .inl rfl⟩, trivial⟩
  · simp only [if_neg h0]
    have hs0 := F.slot_lt db.h tslots (Nat.pos_of_ne_zero h0)
    generalize hdb' : { db with tbase := tbase, tslots := tslots, s0 := F.slot db.h tslots } = db'
    have hs0' : db'.s0 = F.slot db.h tslots := by rw [← hdb']
    have hT' : db'.tslots = tslots := by rw [← hdb']
    have hfirst : F.slot db.h tslots = slotAt db' 0 := by
      rw [slotAt, Nat.add_zero, hs0', hT', Nat.mod_eq_of_lt hs0]
    rw [hfirst]
    rw [← hT'] at hT ⊢
    rw [← hs0', ← hT'] at hs0
    obtain ⟨j, log, hrun, hprobed⟩ :=
      @hashProbeRun_probed F db' 0 db'.tslots hs0 (by omega) (Nat.le_refl _) c
    rw [hrun, Option.bind_some]
    have hring := hprobed.way
    rw [show ring db' 0 = [] from rfl, List.nil_append] at hring
    subst hring
    have hj := hprobed.forth
    rcases hprobed.result with ⟨hret, hsame⟩ | ⟨hret, rpos, dlen, hdb⟩
    · rw [visitsRun_stopped (by simp only; omega), visits_stopped (by omega), hsame]
      refine ⟨_, rfl, walksOnce_of_ring hprobed.within (List.nil_sublist _) fun _ => hret, rfl⟩
    · generalize hashProbe F db' db'.tslots (slotAt db' 0) c = r at hret hdb
      obtain ⟨ret, db'', c'⟩ := r
      simp only at hret hdb
      subst hret hdb
      obtain ⟨k, log', hk, hkT, hway, hvisits, hfound, hends⟩ :=
        @visitsRun_way F { db' with sN := slotAt db' (j - 1), rpos := rpos, dlen := dlen } j hs0 hT hj
          hprobed.within rfl c' (ring db' j) n
      have hring : ∀ x, ring { db' with sN := slotAt db' (j - 1), rpos := rpos, dlen := dlen } x =
        ring db' x := fun _ => rfl
      rw [hring, hring] at hway
      rw [hvisits, hway]
      refine ⟨_, rfl, @walksOnce_of_ring db' n k hkT _ ?_ fun h => hends (by simp only; omega), rfl⟩
      rw [← hway]
      exact hfound.trans ((List.singleton_sublist.mpr hprobed.last).append_right log')

end ring

/-! ## The two formats -/

theorem visitsRun_ofDb (db : Hdb) (n : ℕ) (r : (ℤ × Db × Calls) × List ℕ) :
    visitsRun hdbFindnextRun (fun db => db.sN) n (ofDbRun db r) =
      visitsRun (findnextRun hdbFormat) Db.sN n r := by
  induction n generalizing db r with
  | zero => rfl
  | succ n ih =>
    obtain ⟨⟨ret, db', c⟩, seen⟩ := r
    by_cases hret : ret = 1
    · subst hret
      simp only [visitsRun, ofDbRun, ofDb, hdbFindnextRun, if_true]
      cases findnextRun hdbFormat db' c with
      | none => rfl
      | some r' =>
        simp only [Option.map_some, Option.bind_some]
        rw [ih]
    · have hleft := @visitsRun_stopped _ _ hdbFindnextRun (fun db => db.sN)
        (ofDbRun db ((ret, db', c), seen)) hret (n + 1)
      have hright := @visitsRun_stopped _ _ (findnextRun hdbFormat) Db.sN ((ret, db', c), seen) hret
        (n + 1)
      exact hleft.trans hright.symm

theorem cdbFind_chain (db : Db) (c : Calls) (key : List UInt8) (n : ℕ) :
    ∃ probed, (cdbFindRun db c key).bind (visitsRun cdbFindnextRun Db.sN n) =
        some (visits cdbFindnext Db.sN n (cdbFind db c key), probed) ∧
      WalksOnce (cdbFind db c key).2.1.tslots n (visits cdbFindnext Db.sN n (cdbFind db c key))
        probed := by
  unfold cdbFindRun cdbFind
  simp only [dbReadRun_eq, Option.bind_some]
  generalize hdb' : { db with key := key, klen := key.length, h := cdbFormat.hash key } = db'
  generalize dbRead db' c 8 (cdbNtab (cdbFormat.hash key) * 8) = res
  obtain ⟨nbuf, c'⟩ := res
  cases nbuf with
  | none =>
    simp only [Option.bind_some]
    rw [visitsRun_stopped (by simp), visits_stopped (by simp)]
    exact ⟨[], rfl, ⟨Nat.zero_le _, List.nodup_nil, List.Sublist.refl _, List.nodup_nil,
      fun _ => .inr rfl⟩⟩
  | some nbuf =>
    obtain ⟨probed, hrun, honce, hT⟩ := @visitsRun_probeTable cdbFormat db' c' (unpack32 nbuf) _
      (unpack32_lt (nbuf.drop 4)) n
    exact ⟨probed, hrun, hT.symm ▸ honce⟩

theorem hdbInit_value_lt (file : List UInt8) (mmaps : Bool) (c : Calls) (i : ℕ) :
    ((hdbInit file mmaps c).2.1.tndx.getD i ⟨0, 0⟩).value < 2 ^ 32 := by
  have hall : ∀ v ∈ (hdbInit file mmaps c).2.1.tndx, v.value < 2 ^ 32 := by
    have hzero : ∀ v ∈ List.replicate hdbNtabs (⟨0, 0⟩ : Valoff), v.value < 2 ^ 32 := by decide
    unfold hdbInit
    simp only
    generalize dbRead (dbZero file mmaps) c hdbCbase 0 = res
    obtain ⟨header, c'⟩ := res
    cases header with
    | none => exact hzero
    | some header =>
      by_cases hid : header.take hdbIdlen ≠ hdb32Ident
      · simp only [if_pos hid]
        exact hzero
      · simp only [if_neg hid, loadHeader]
        intro v hv
        obtain ⟨i, -, rfl⟩ := List.mem_map.mp hv
        exact unpack32_lt _
  rw [List.getD_eq_getElem?_getD]
  cases hv : (hdbInit file mmaps c).2.1.tndx[i]? with
  | none => decide
  | some v => exact hall v (List.mem_of_getElem? hv)

theorem hdbProbe_chain (db : Hdb) (c : Calls) (tbase : ℕ) {tslots : ℕ} (hT : tslots < 2 ^ 32)
    (n : ℕ) :
    let r := ofDb db (probeTable hdbFormat db.toDb c tbase tslots)
    ∃ probed, ((probeTableRun hdbFormat db.toDb c tbase tslots).map (ofDbRun db)).bind
        (visitsRun hdbFindnextRun (fun db => db.sN) n) =
          some (visits hdbFindnext (fun db => db.sN) n r, probed) ∧
      WalksOnce r.2.1.tslots n (visits hdbFindnext (fun db => db.sN) n r) probed := by
  intro r
  obtain ⟨probed, hrun, honce, hslots⟩ := @visitsRun_probeTable hdbFormat db.toDb c tbase _ hT n
  have hvisits : visits hdbFindnext (fun db => db.sN) n r =
      visits (findnext hdbFormat) Db.sN n (probeTable hdbFormat db.toDb c tbase tslots) :=
    HdbExact.visits_ofDb (fun _ _ => rfl) Db.sN db n _
  have hr : r.2.1.tslots = tslots := hslots
  refine ⟨probed, ?_, ?_⟩
  · rw [hvisits, ← hrun, Option.bind_map]
    congr 1
    funext r
    exact visitsRun_ofDb db n r
  · rw [hvisits, hr]
    exact honce

theorem hdbFind_chain {db : Hdb} (hdb : ∀ i, (db.tndx.getD i ⟨0, 0⟩).value < 2 ^ 32) (c : Calls)
    (key : List UInt8) (n : ℕ) :
    ∃ probed, (hdbFindRun db c key).bind (visitsRun hdbFindnextRun (fun db => db.sN) n) =
        some (visits hdbFindnext (fun db => db.sN) n (hdbFind db c key), probed) ∧
      WalksOnce (hdbFind db c key).2.1.tslots n
        (visits hdbFindnext (fun db => db.sN) n (hdbFind db c key)) probed := by
  unfold hdbFindRun hdbFind
  by_cases hlong : key.length > hdbU24max
  · rw [if_pos hlong, if_pos hlong, Option.bind_some, visitsRun_stopped (by simp),
      visits_stopped (by simp)]
    exact ⟨[], rfl, ⟨Nat.zero_le _, List.nodup_nil, List.Sublist.refl _, List.nodup_nil,
      fun _ => .inr rfl⟩⟩
  · rw [if_neg hlong, if_neg hlong]
    exact hdbProbe_chain { db with key := key, klen := key.length, h := hdbFormat.hash key } c _
      (hdb (hdbNtab (hdbFormat.hash key))) n

/-- Whatever is in the file and in the reader: a search and all calls of `findnext`
after it probe each slot of a table at most once, no match is found twice, the chain
ends after at most `tslots` matches, and nothing outside the map is read. -/
theorem lookup_ends :
    (∀ (db : Db) (c : Calls) (key : List UInt8) (n : ℕ),
      ∃ probed, (cdbFindRun db c key).bind (visitsRun cdbFindnextRun Db.sN n) =
          some (visits cdbFindnext Db.sN n (cdbFind db c key), probed) ∧
        WalksOnce (cdbFind db c key).2.1.tslots n (visits cdbFindnext Db.sN n (cdbFind db c key))
          probed) ∧
      ∀ (file : List UInt8) (mmaps : Bool) (c : Calls) (db : Db) (c' : Calls) (key : List UInt8)
        (n : ℕ),
        let hdb : Hdb := { (hdbInit file mmaps c).2.1 with toDb := db }
        ∃ probed, (hdbFindRun hdb c' key).bind (visitsRun hdbFindnextRun (fun db => db.sN) n) =
            some (visits hdbFindnext (fun db => db.sN) n (hdbFind hdb c' key), probed) ∧
          WalksOnce (hdbFind hdb c' key).2.1.tslots n
            (visits hdbFindnext (fun db => db.sN) n (hdbFind hdb c' key)) probed := by
  refine ⟨cdbFind_chain, fun file mmaps c db c' key n => ?_⟩
  exact @hdbFind_chain { (hdbInit file mmaps c).2.1 with toDb := db }
    (hdbInit_value_lt file mmaps c) c' key n

end Perp.HashChain
