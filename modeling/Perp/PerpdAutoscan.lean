import Perp.PerpdClient
import Perp.PerpdClock
import Perp.PerpdLeft

set_option autoImplicit false

/-!
# Autoscan

How long perpd waits in `poll()` between two scans, and what of that time its
countdown does not see.
-/
namespace Perp.PerpdAutoscan
open PerpdState PerpdSvdef PerpdConn PerpdMainloop PerpdClient PerpdMoves PerpdPhases PerpdRuns
  PerpdService PerpdLeft PerpdClock

section Waiting

/-- The time in the calls that are interrupted. Each lasts until the next one
reads the clock, and no longer than its timeout. -/
def intrWaited (timeout : ℕ) (clock : ℕ → Tain) : ℕ → ℕ
  | 0 => 0
  | n + 1 => min timeout (gap (clock 0) (clock 1)) + intrWaited timeout (fun m => clock (m + 1)) n

/-- The time in the last call, which ends with `n` descriptors ready or in a timeout. -/
def lastWaited (timeout : ℕ) (clock : ℕ → Tain) (n : ℕ) : ℕ :=
  if n = 0 then timeout else min timeout (gap (clock 0) (clock 1))

/-- The timeout in nanoseconds, as `pollio()` constrains it. -/
def pollTimeout (w : Perpd) : ℕ := (min w.pollInterval 100000000).toNat * 1000000

/-- The number of descriptors that the last call finds ready. -/
def pollReady (w : Perpd) (inp : IterIn) : ℕ :=
  nreadyOf { w with sys := inp.signals.foldl sigTrap w.sys } inp

/-- The time perpd waits in `poll()`, where it has come to the poll. A call that
fails with anything but `EINTR` fails at once. -/
def waitedAt (w : Perpd) (inp : IterIn) : ℕ :=
  intrWaited (pollTimeout w) w.sys.clock inp.intr +
    if inp.pollErr then 0
    else lastWaited (pollTimeout w) (fun m => w.sys.clock (inp.intr + m)) (pollReady w inp)

/-- What of it is lost to the countdown: the interrupted calls, and the fraction
of a millisecond of a call that ends early. -/
def lostAt (w : Perpd) (inp : IterIn) : ℕ :=
  intrWaited (pollTimeout w) w.sys.clock inp.intr +
    if inp.pollErr then 0
    else if pollReady w inp = 0 then 0
    else lastWaited (pollTimeout w) (fun m => w.sys.clock (inp.intr + m)) (pollReady w inp) % 1000000

def pollWaited (w : Perpd) (inp : IterIn) : ℕ := waitedAt (loopTop w) inp

def pollLost (w : Perpd) (inp : IterIn) : ℕ := lostAt (loopTop w) inp

/-- The number of calls of `perpd_scan()`. -/
def scans (w : Perpd) : ℕ := w.sys.trace.count .scan

/-- A sum over the iterations since the last one with a scan. -/
def sinceScan (f : Perpd → IterIn → ℕ) (cfg : Config) (inputs : List IterIn) : ℕ :=
  (inputs.foldl (fun x inp =>
    let w := perpdIterate x.1 inp
    (w, if scans w = scans x.1 then x.2 + f x.1 inp else 0)) (perpdStart cfg, 0)).2

theorem sinceScan_concat (f : Perpd → IterIn → ℕ) (cfg : Config) (inputs : List IterIn)
    (inp : IterIn) : sinceScan f cfg (inputs ++ [inp]) =
      if scans (perpdIterate (perpdRun cfg inputs) inp) = scans (perpdRun cfg inputs) then
        sinceScan f cfg inputs + f (perpdRun cfg inputs) inp
      else 0 := by
  have hfst (inputs : List IterIn) : (inputs.foldl (fun (x : Perpd × ℕ) inp =>
      let w := perpdIterate x.1 inp
      (w, if scans w = scans x.1 then x.2 + f x.1 inp else 0)) (perpdStart cfg, 0)).1 =
        perpdRun cfg inputs := by
    induction inputs using List.reverseRecOn with
    | nil => rfl
    | append_singleton inputs inp ih =>
      rw [perpdRun, List.foldl_append, List.foldl_append, ← perpdRun, ← ih]
      rfl
  simp only [sinceScan, List.foldl_append, List.foldl_cons, List.foldl_nil, hfst]

end Waiting

section Countdown

theorem diff_exact {a b : Tain} (ha : a.Normal) (hb : b.Normal) (hle : a.nanos ≤ b.nanos)
    (hfit : gap a b < 2 ^ 64 * 1000000) :
    (if Tain.less a b then Tain.minus b a else Tain.minus a b).toMsecs.toNat =
      gap a b / 1000000 := by
  unfold gap at hfit ⊢
  split
  · obtain ⟨hn, he⟩ := Tain.minus_exact hb ha hle
    rw [Tain.toMsecs_exact hn (by rwa [he]), he]
  · next hlt =>
    have heq : b.nanos ≤ a.nanos := by
      rw [Tain.less_iff ha hb] at hlt
      omega
    obtain ⟨hn, he⟩ := Tain.minus_exact ha hb heq
    have hz : a.nanos - b.nanos = b.nanos - a.nanos := by omega
    rw [Tain.toMsecs_exact hn (by rwa [he, hz]), he, hz]

theorem toInt32_small {x : ℤ} (h0 : 0 ≤ x) (h : x ≤ 100000000) : toInt32 x = x := by
  unfold toInt32
  omega

theorem pollio_ready {s : Sys} {msecsMax n : ℤ} (rem : ℤ) (hm : 0 < msecsMax) (hn : 0 < n)
    (hc : ClockOk s.clock) (hfit : gap (s.clock 0) (s.clock 2) < 2 ^ 64 * 1000000) :
    (pollio s msecsMax n rem).2 = min msecsMax 100000000 -
      min (↑(gap (s.clock 0) (s.clock 2) / 1000000)) (min msecsMax 100000000) := by
  have hle : (s.clock 0).nanos ≤ (s.clock 2).nanos := (hc.mono 0).trans (hc.mono 1)
  have hdiff := diff_exact (hc.normal 0) (hc.normal 2) hle hfit
  have hcap : (if msecsMax > 100000000 then (100000000 : ℤ) else msecsMax) =
      min msecsMax 100000000 := by
    split <;> omega
  unfold pollio
  dsimp only
  rw [hcap]
  generalize hT : min msecsMax 100000000 = T
  have hT0 : 0 < T := by omega
  have hT1 : T ≤ 100000000 := by omega
  have hcapN : (UInt64.ofInt T).toNat = T.toNat := by
    simp only [UInt64.ofInt, UInt64.toNat_ofNat']
    omega
  have hn0 : ¬ n < 0 := by omega
  have hn1 : ¬ n = 0 := by omega
  have hT2 : ¬ T = 0 := by omega
  have hT3 : ¬ T = -1 := by omega
  simp only [hT0, hn, hn0, hn1, hT2, hT3, and_self, ↓reduceIte, Sys.tainNow]
  have hclock : s.clock (0 + 1 + 1) = s.clock 2 := rfl
  rw [hclock]
  generalize (if Tain.less (s.clock 0) (s.clock 2) = true then
    Tain.minus (s.clock 2) (s.clock 0) else Tain.minus (s.clock 0) (s.clock 2)) = diff at *
  have hmin : ((if diff.toMsecs > UInt64.ofInt T then UInt64.ofInt T else diff.toMsecs).toNat : ℤ) =
      min (↑(gap (s.clock 0) (s.clock 2) / 1000000)) T := by
    rw [← hdiff]
    split
    · next h =>
      rw [gt_iff_lt, UInt64.lt_iff_toNat_lt, hcapN] at h
      omega
    · next h =>
      rw [gt_iff_lt, UInt64.lt_iff_toNat_lt, hcapN] at h
      omega
  rw [hmin, toInt32_small (x := min _ T) (by omega) (by omega), toInt32_small (by omega) (by omega)]

/-- What is left of the timeout makes up for the time of the last call, but for the
fraction of a millisecond. -/
theorem pollio_counts {s : Sys} {msecsMax : ℤ} (n : ℕ) (rem : ℤ) (hm : 0 ≤ msecsMax)
    (hc : ClockOk s.clock) (hfit : gap (s.clock 0) (s.clock 2) < 2 ^ 64 * 1000000) :
    let timeout := (min msecsMax 100000000).toNat * 1000000
    let r := (pollio s msecsMax n rem).2
    0 ≤ r ∧ r ≤ msecsMax ∧ r * 1000000 + lastWaited timeout s.clock n ≤
      msecsMax * 1000000 + if n = 0 then 0 else lastWaited timeout s.clock n % 1000000 := by
  intro timeout r
  have hgap : gap (s.clock 0) (s.clock 1) ≤ gap (s.clock 0) (s.clock 2) := by
    have hmono : (s.clock 1).nanos ≤ (s.clock 2).nanos := hc.mono 1
    unfold gap
    omega
  have hn0 : ¬ (n : ℤ) < 0 := by omega
  by_cases hm0 : msecsMax = 0
  · have hr : r = 0 := by simp [r, pollio, hm0, hn0]
    have ht : timeout = 0 := by simp [timeout, hm0]
    simp [hr, ht, hm0, lastWaited]
  by_cases hn : n = 0
  · have hr : r = 0 := by
      have h1 : ¬ (min msecsMax 100000000 = 0) := by omega
      have h2 : ¬ (min msecsMax 100000000 = -1) := by omega
      have hcap : (if msecsMax > 100000000 then (100000000 : ℤ) else msecsMax) =
          min msecsMax 100000000 := by
        split <;> omega
      simp [r, pollio, hcap, h1, h2, hn]
    simp only [hr, lastWaited, hn, ↓reduceIte, timeout]
    omega
  · have hr : r = _ := pollio_ready rem (by omega) (by omega) hc hfit
    simp only [hr, lastWaited, hn, ↓reduceIte, timeout]
    omega

theorem sigTrap_clock (s : Sys) (sig : Signal) : (sigTrap s sig).clock = s.clock := by
  cases h : s.flagTerminating <;> cases sig <;> simp [sigTrap, Sys.selfpipePing, h]

theorem signals_clock (sigs : List Signal) (s : Sys) : (sigs.foldl sigTrap s).clock = s.clock := by
  induction sigs generalizing s with
  | nil => rfl
  | cons sig sigs ih => rw [List.foldl_cons, ih, sigTrap_clock]

theorem pollIntr_clock (msecsMax rem : ℤ) (hm : 0 < msecsMax) (n : ℕ) (s : Sys) :
    (pollIntr msecsMax rem n s).clock = fun m => s.clock (n + m) := by
  induction n generalizing s with
  | zero => simp [pollIntr]
  | succ n ih =>
    have hcap : 0 < (if msecsMax > 100000000 then (100000000 : ℤ) else msecsMax) := by
      split <;> omega
    have hone : (pollio s msecsMax (-1) rem).1.clock = fun m => s.clock (m + 1) := by
      simp [pollio, hcap, Sys.tainNow]
    rw [pollIntr, ih, hone]
    funext m
    exact congrArg s.clock (by omega)

theorem nready_selfpipe (w : Perpd) (inp : IterIn) (h : 0 < w.sys.selfpipe) :
    0 < nreadyOf w inp := by
  unfold nreadyOf
  rw [if_pos h]
  omega

theorem loopPoll_error (w : Perpd) (inp : IterIn) :
    (loopPoll w inp).2 = -1 ↔ inp.pollErr = true := by
  unfold loopPoll
  dsimp only
  split
  · next h =>
    have := nready_selfpipe { w with sys := inp.signals.foldl sigTrap w.sys } inp h.1
    simp only [h.2, Bool.false_eq_true, ↓reduceIte, iff_false]
    omega
  · cases inp.pollErr <;> simp

theorem loopPoll_remain (w : Perpd) (inp : IterIn) : (loopPoll w inp).1.pollRemain =
    (pollio (pollIntr w.pollInterval w.pollRemain inp.intr (inp.signals.foldl sigTrap w.sys))
      w.pollInterval (if inp.pollErr then -1 else pollReady w inp) w.pollRemain).2 := by
  unfold loopPoll pollReady
  dsimp only
  split <;> rfl

theorem intrWaited_zero (clock : ℕ → Tain) (n : ℕ) : intrWaited 0 clock n = 0 := by
  induction n generalizing clock with
  | zero => rfl
  | succ n ih => simp [intrWaited, ih]

/-- A poll without error: what is left and the time waited make no more than the
interval and the time lost. -/
theorem loopPoll_counts (w : Perpd) (inp : IterIn) (hi : 0 ≤ w.pollInterval)
    (hc : ClockOk w.sys.clock)
    (hfit : ∀ n, gap (w.sys.clock n) (w.sys.clock (n + 2)) < 2 ^ 64 * 1000000)
    (herr : inp.pollErr = false) :
    let r := (loopPoll w inp).1.pollRemain
    0 ≤ r ∧ r ≤ w.pollInterval ∧
      r * 1000000 + waitedAt w inp ≤ w.pollInterval * 1000000 + lostAt w inp := by
  intro r
  have hsig := signals_clock inp.signals w.sys
  generalize hs : pollIntr w.pollInterval w.pollRemain inp.intr
    (inp.signals.foldl sigTrap w.sys) = s at *
  have hr : r = (pollio s w.pollInterval (pollReady w inp) w.pollRemain).2 := by
    simp only [r, loopPoll_remain, herr, hs, Bool.false_eq_true, ↓reduceIte]
  rw [hr]
  simp only [waitedAt, lostAt, herr, Bool.false_eq_true, ↓reduceIte]
  by_cases hpos : 0 < w.pollInterval
  · have hclock : s.clock = fun m => w.sys.clock (inp.intr + m) := by
      rw [← hs, pollIntr_clock _ _ hpos, hsig]
    rw [← hclock]
    obtain ⟨h0, hle, hcount⟩ := pollio_counts (s := s) (pollReady w inp) w.pollRemain hi
      (by rw [hclock]; exact hc.shift _) (by rw [hclock]; exact hfit inp.intr)
    rw [show (min w.pollInterval 100000000).toNat * 1000000 = pollTimeout w from rfl] at hcount
    refine ⟨h0, hle, ?_⟩
    split at hcount
    · next hn =>
      simp only [hn, ↓reduceIte] at hcount ⊢
      omega
    · next hn =>
      simp only [hn, ↓reduceIte] at hcount ⊢
      omega
  · have hz : w.pollInterval = 0 := by omega
    have ht : pollTimeout w = 0 := by simp [pollTimeout, hz]
    have hn0 : ¬ (pollReady w inp : ℤ) < 0 := by omega
    have hrem : (pollio s 0 (pollReady w inp) w.pollRemain).2 = 0 := by
      simp [pollio, hn0]
    simp [hrem, ht, hz, intrWaited_zero, lastWaited]

end Countdown

section Timer
variable {w w' : Perpd}

/-- The variables of the countdown are as they were, and perpd has not ended. -/
structure SameTimer (w w' : Perpd) : Prop where
  arg : w'.argAutoscan = w.argAutoscan
  max : w'.pollMax = w.pollMax
  remain : w'.pollRemain = w.pollRemain
  exit : w'.exit = w.exit

theorem SameTimer.refl (w : Perpd) : SameTimer w w := ⟨rfl, rfl, rfl, rfl⟩

theorem SameTimer.trans {w'' : Perpd} (h : SameTimer w w') (h' : SameTimer w' w'') :
    SameTimer w w'' :=
  ⟨h'.arg.trans h.arg, h'.max.trans h.max, h'.remain.trans h.remain, h'.exit.trans h.exit⟩

theorem loopChld_timer (w : Perpd) (inp : IterIn) : SameTimer w (loopChld w inp) := by
  unfold loopChld
  split <;> exact ⟨rfl, rfl, rfl, rfl⟩

theorem loopScan_timer (w : Perpd) (inp : IterIn) : SameTimer w (loopScan w inp) := by
  unfold loopScan
  split <;> exact ⟨rfl, rfl, rfl, rfl⟩

theorem loopFailing_timer (ht : w.sys.flagTerminating = false) :
    SameTimer w (loopFailing w).1 := by
  unfold loopFailing
  split
  · exact .refl w
  · simp only [ht, Bool.false_eq_true, ↓reduceIte]
    exact ⟨rfl, rfl, rfl, rfl⟩

theorem loopClients_timer (w : Perpd) (inp : IterIn) (nready : ℕ) :
    SameTimer w (loopClients w inp nready) := by
  rcases loopClients_cases w inp nready with h | h | h <;> rw [h]
  · exact .refl w
  · exact ⟨rfl, rfl, rfl, rfl⟩
  · obtain ⟨s, cs, ha, _⟩ := loopAccept_cases _ inp.accept
    rw [ha]
    exact ⟨rfl, rfl, rfl, rfl⟩

theorem scans_le (h : LoopOk w) (hp : Phase w w') : scans w ≤ scans w' := by
  obtain ⟨evs, he⟩ := moves_grow h.ok hp.moves
  change w'.sys.trace = w.sys.trace ++ evs at he
  rw [scans, scans, he, List.count_append]
  exact Nat.le_add_right _ _

theorem loopScan_scans (inp : IterIn) (h : LoopOk w)
    (hgo : 0 < w.argAutoscan ∧ w.pollRemain < 100) : scans w < scans (loopScan w inp) := by
  have ht : w.sys.flagTerminating = false := by
    by_contra hn
    have := (h.closed (by simpa using hn)).1
    omega
  have h0 : TableOk ⟨({ w.sys with flagHup := 0 } : Sys).emit .scan, w.svdefs, connfds w.clients⟩ := by
    have hi : Idle w.sys { w.sys with flagHup := 0 } := .of_silent rfl rfl rfl rfl rfl rfl rfl rfl
    have he : Idle _ (({ w.sys with flagHup := 0 } : Sys).emit .scan) := .emit _ .scan trivial
    exact h.ok.moves (.single (.idle (t := table w) _ (hi.trans he)))
  obtain ⟨evs, he⟩ := moves_grow h0
    (scan_rest inp.scan { w.sys with flagHup := 0 } w.svdefs (connfds w.clients) ht).moves
  change (perpdScan inp.scan { w.sys with flagHup := 0 } w.svdefs).1.trace =
    (w.sys.trace ++ [.scan]) ++ evs at he
  unfold loopScan
  rw [if_neg (by simp [hgo])]
  simp only [scans, he, List.count_append, List.count_cons_self, List.count_nil]
  omega

/-- An iteration of a perpd that goes on leaves the countdown as the poll left
it, and scans when it is over. -/
theorem loopBody_timer (inp : IterIn) (h : LoopOk w)
    (ht : (loopBody w inp).sys.flagTerminating = false) :
    SameTimer (loopPoll (loopTop w) inp).1 (loopBody w inp) ∧
      (inp.pollErr = false → 0 < w.argAutoscan → (loopPoll (loopTop w) inp).1.pollRemain < 100 →
        scans w < scans (loopBody w inp)) := by
  have h0 := loopTop_phase w h
  have h1 := h0.trans (loopPoll_phase _ inp h0.ok)
  have harg : (loopPoll (loopTop w) inp).1.argAutoscan = w.argAutoscan := by
    rw [loopPoll_argAutoscan]
    rfl
  have herr := loopPoll_error (loopTop w) inp
  unfold loopBody at ht ⊢
  dsimp only at ht ⊢
  split at ht
  · next hx =>
    rw [if_pos hx]
    refine ⟨.refl _, fun hno => ?_⟩
    simp [herr.mp hx] at hno
  next hx =>
  rw [if_neg hx]
  have h2 := loopTerm_phase _ h1.ok
  generalize (loopPoll (loopTop w) inp).1 = w1 at *
  have h3 := loopChld_phase (loopTerm w1) inp h2.ok
  have h4 := loopScan_phase _ inp h3.ok
  have h5 := loopFailing_phase _ h4.ok
  have ht4 : (loopScan (loopChld (loopTerm w1) inp) inp).sys.flagTerminating = false := by
    split at ht
    · exact phase_terminating h4.ok h5 ht
    · exact phase_terminating h4.ok (h5.trans (loopClients_phase _ inp _ h5.ok)) ht
  have ht2 := phase_terminating h2.ok (h3.trans h4) ht4
  have hsame := (loopTerm_running ht2).2
  rw [hsame] at h3 h4 h5 ht4 ⊢
  have ht3 := loopChld_timer w1 inp
  have ht5 := (ht3.trans (loopScan_timer _ inp)).trans (loopFailing_timer ht4)
  have hs3 := (scans_le h h1).trans (scans_le h1.ok h3)
  have hs5 := scans_le h4.ok h5
  have hscan (ha : 0 < w.argAutoscan) (hr : w1.pollRemain < 100) :=
    loopScan_scans inp h3.ok ⟨by rwa [ht3.arg, harg], by rwa [ht3.remain]⟩
  split
  · exact ⟨ht5, fun _ ha hr => (hs3.trans_lt (hscan ha hr)).trans_le hs5⟩
  · have hs6 := hs5.trans (scans_le h5.ok
      (loopClients_phase _ inp (loopPoll (loopTop w) inp).2.toNat h5.ok))
    exact ⟨ht5.trans (loopClients_timer _ _ _),
      fun _ ha hr => (hs3.trans_lt (hscan ha hr)).trans_le hs6⟩

theorem loopPoll_same (w : Perpd) (inp : IterIn) :
    (loopPoll w inp).1.pollMax = w.pollMax ∧ (loopPoll w inp).1.exit = w.exit := by
  unfold loopPoll
  dsimp only
  split <;> exact ⟨rfl, rfl⟩

end Timer

/-- The interval for autoscan as perpd computes it, in an `int`. -/
def autoscanMsecs (s : ℕ) : ℤ := toInt32 (toInt32 s * 1000)

/-- The countdown between two iterations: what is left for the next poll makes
up for the time waited since the last scan, but for what was lost. -/
structure Countdown (cfg : Config) (w : Perpd) (waited lost : ℕ) : Prop where
  arg : w.argAutoscan = cfg.argAutoscan
  max : w.pollMax = autoscanMsecs cfg.argAutoscan
  exit : w.exit = none
  pos : 0 ≤ (loopTop w).pollInterval
  le : (loopTop w).pollInterval ≤ autoscanMsecs cfg.argAutoscan
  count : waited + (loopTop w).pollInterval * 1000000 ≤
    autoscanMsecs cfg.argAutoscan * 1000000 + lost

section Runs
variable {cfg : Config} {w : Perpd} {waited lost : ℕ}

theorem interval_eq (hs : 0 < w.argAutoscan) : (loopTop w).pollInterval =
    if w.pollRemain < 100 then w.pollMax else w.pollRemain :=
  if_pos hs

theorem Countdown.poll (h : Countdown cfg w waited lost) (inp : IterIn)
    (hc : ClockOk (loopTop w).sys.clock)
    (hfit : ∀ n, gap ((loopTop w).sys.clock n) ((loopTop w).sys.clock (n + 2)) <
      2 ^ 64 * 1000000) :
    ((waited + pollWaited w inp : ℕ) : ℤ) ≤
      autoscanMsecs cfg.argAutoscan * 1000000 + (lost + pollLost w inp : ℕ) := by
  have hcount := h.count
  have hpos := h.pos
  cases herr : inp.pollErr with
  | true =>
    simp only [pollWaited, pollLost, waitedAt, lostAt, herr, ↓reduceIte]
    omega
  | false =>
    obtain ⟨h0, _, hr⟩ := loopPoll_counts (loopTop w) inp hpos hc hfit herr
    simp only [pollWaited, pollLost]
    omega

theorem Countdown.iterate (h : Countdown cfg w waited lost) (hs : 0 < cfg.argAutoscan)
    (hw : LoopOk w) (inp : IterIn) (hc : ClockOk (loopTop w).sys.clock)
    (hfit : ∀ n, gap ((loopTop w).sys.clock n) ((loopTop w).sys.clock (n + 2)) <
      2 ^ 64 * 1000000)
    (ht : (perpdIterate w inp).sys.flagTerminating = false) :
    let counted (before now : ℕ) := if scans (perpdIterate w inp) = scans w then before + now else 0
    Countdown cfg (perpdIterate w inp) (counted waited (pollWaited w inp))
      (counted lost (pollLost w inp)) := by
  intro counted
  have hw0 := phase_terminating hw (iterate_phase w inp hw) ht
  have hbody : perpdIterate w inp = loopBody w inp := by
    simp [perpdIterate, h.exit, hw0]
  have hpoll := h.poll inp hc hfit
  have hpos := h.pos
  have hle := h.le
  rw [hbody] at ht ⊢
  simp only [counted, hbody]
  obtain ⟨hsame, hscan⟩ := loopBody_timer inp hw ht
  obtain ⟨hmax, hexit⟩ := loopPoll_same (loopTop w) inp
  have harg : (loopBody w inp).argAutoscan = cfg.argAutoscan :=
    (hsame.arg.trans (loopPoll_argAutoscan _ inp)).trans h.arg
  have hmax' : (loopBody w inp).pollMax = autoscanMsecs cfg.argAutoscan :=
    (hsame.max.trans hmax).trans h.max
  have hint := interval_eq (w := loopBody w inp) (by rwa [harg])
  have hold := interval_eq (w := w) (by rwa [h.arg])
  rw [hsame.remain, hmax'] at hint
  rw [h.max] at hold
  have hbound : 0 ≤ (loopTop (loopBody w inp)).pollInterval ∧
      (loopTop (loopBody w inp)).pollInterval ≤ autoscanMsecs cfg.argAutoscan ∧
      (scans (loopBody w inp) = scans w →
        waited + pollWaited w inp + (loopTop (loopBody w inp)).pollInterval * 1000000 ≤
          autoscanMsecs cfg.argAutoscan * 1000000 + (lost + pollLost w inp)) := by
    cases herr : inp.pollErr with
    | true =>
      have hrem : (loopPoll (loopTop w) inp).1.pollRemain = w.pollRemain := by
        rw [loopPoll_remain, herr]
        simp only [↓reduceIte, pollio, Int.reduceNeg, Int.reduceLT]
        rfl
      rw [hint, hrem, ← hold]
      refine ⟨hpos, hle, fun _ => ?_⟩
      have hcount := h.count
      simp only [pollWaited, pollLost, waitedAt, lostAt, herr, ↓reduceIte]
      omega
    | false =>
      obtain ⟨h0, h1, hr⟩ := loopPoll_counts (loopTop w) inp hpos hc hfit herr
      have hcount := h.count
      have hgo := hscan herr (by rwa [h.arg])
      rw [hint]
      split
      · next hlt => exact ⟨by omega, le_refl _, fun he => by have := hgo hlt; omega⟩
      · exact ⟨h0, by omega, fun _ => by simp only [pollWaited, pollLost]; omega⟩
  obtain ⟨h0, h1, h2⟩ := hbound
  refine ⟨harg, hmax', (hsame.exit.trans hexit).trans h.exit, h0, h1, ?_⟩
  split
  · next he => exact_mod_cast h2 he
  · push_cast
    omega

theorem countdown_start (cfg : Config) (hs : 0 < cfg.argAutoscan) (hu : cfg.argAutoscan < 2 ^ 32)
    (hm : 0 ≤ autoscanMsecs cfg.argAutoscan) : Countdown cfg (perpdStart cfg) 0 0 := by
  have hne : toInt32 cfg.argAutoscan ≠ 0 := by
    unfold toInt32
    omega
  have hmax : (perpdStart cfg).pollMax = autoscanMsecs cfg.argAutoscan := by
    simp only [perpdStart, ne_eq, hne, not_false_eq_true, ↓reduceIte, autoscanMsecs]
  have hint : (loopTop (perpdStart cfg)).pollInterval = autoscanMsecs cfg.argAutoscan := by
    have hrem : (perpdStart cfg).pollRemain < 100 := by simp [perpdStart]
    rw [interval_eq hs, if_pos hrem, hmax]
  refine ⟨rfl, hmax, rfl, ?_, ?_, ?_⟩ <;> rw [hint] <;> omega

theorem run_countdown (cfg : Config) (hs : 0 < cfg.argAutoscan) (hu : cfg.argAutoscan < 2 ^ 32)
    (hm : 0 ≤ autoscanMsecs cfg.argAutoscan) (hc : ClockOk cfg.clock)
    (hfit : ∀ n, gap (cfg.clock n) (cfg.clock (n + 2)) < 2 ^ 64 * 1000000) (inputs : List IterIn)
    (ht : (perpdRun cfg inputs).sys.flagTerminating = false) :
    Countdown cfg (perpdRun cfg inputs) (sinceScan pollWaited cfg inputs)
      (sinceScan pollLost cfg inputs) := by
  induction inputs using List.reverseRecOn with
  | nil => exact countdown_start cfg hs hu hm
  | append_singleton inputs inp ih =>
    rw [perpdRun, List.foldl_append] at ht ⊢
    have hw := (run_phase cfg inputs).ok
    have hrun := ih (phase_terminating hw (iterate_phase _ inp hw) ht)
    obtain ⟨n, hn⟩ := top_clock cfg inputs
    rw [sinceScan_concat, sinceScan_concat]
    refine hrun.iterate hs hw inp ?_ ?_ ht <;> rw [hn]
    · exact hc.shift n
    · exact fun m => hfit (n + m)

end Runs

/-- At the end of the next poll perpd has waited for no more than the interval
and a tenth of a second since the last scan. -/
def AutoscanTimely (cfg : Config) (inputs : List IterIn) (inp : IterIn) : Prop :=
  sinceScan pollWaited cfg inputs + pollWaited (perpdRun cfg inputs) inp ≤
    (cfg.argAutoscan * 1000 + 100) * 1000000

/-- Where the interval fits an `int`, and the interrupted calls and the fractions
of milliseconds since the last scan are no more than a tenth of a second,
autoscan is not starved. -/
theorem autoscan_timely (cfg : Config) (hs : 0 < cfg.argAutoscan) (hu : cfg.argAutoscan < 2 ^ 32)
    (hm : 0 ≤ autoscanMsecs cfg.argAutoscan) (hc : ClockOk cfg.clock)
    (hfit : ∀ n, gap (cfg.clock n) (cfg.clock (n + 2)) < 2 ^ 64 * 1000000) (inputs : List IterIn)
    (inp : IterIn) (ht : (perpdRun cfg inputs).sys.flagTerminating = false)
    (hlost : sinceScan pollLost cfg inputs + pollLost (perpdRun cfg inputs) inp ≤ 100 * 1000000) :
    AutoscanTimely cfg inputs inp := by
  have hrun := run_countdown cfg hs hu hm hc hfit inputs ht
  obtain ⟨n, hn⟩ := top_clock cfg inputs
  have hpoll := hrun.poll inp (by rw [hn]; exact hc.shift n)
    (by rw [hn]; exact fun m => hfit (n + m))
  have hms : autoscanMsecs cfg.argAutoscan ≤ cfg.argAutoscan * 1000 := by
    unfold autoscanMsecs toInt32 at hm ⊢
    omega
  unfold AutoscanTimely
  omega

/-- Autoscan every second, by a clock that shows two waits of 0.9 s. -/
def everySecond : Config :=
  { plain [] with
    argAutoscan := 1
    clock := fun n =>
      if n ≤ 5 then ⟨100, 0⟩ else if n ≤ 10 then ⟨100, 900000000⟩ else ⟨101, 800000000⟩ }

theorem everySecond_clock : ClockOk everySecond.clock := by
  constructor <;> intro n <;> simp only [everySecond, Tain.Normal]
  · split
    · decide
    split <;> decide
  · split
    · split
      · exact le_refl _
      split <;> decide
    split
    · split
      · omega
      split <;> decide
    · split
      · omega
      split
      · omega
      · exact le_refl _

theorem everySecond_gap (n : ℕ) :
    gap (everySecond.clock n) (everySecond.clock (n + 2)) < 2 ^ 64 * 1000000 := by
  have hmax : (everySecond.clock (n + 2)).nanos ≤ 102000000000 := by
    simp only [everySecond]
    split
    · decide
    split <;> decide
  unfold gap
  omega

theorem autoscan_timely_idle : AutoscanTimely everySecond [quiet] quiet :=
  autoscan_timely everySecond (by decide) (by decide) (by decide) everySecond_clock everySecond_gap
    [quiet] quiet (by decide +kernel) (by decide +kernel)

/-- A child dies while perpd waits in `poll()`. -/
def interrupted : IterIn := { quiet with signals := [.sigchld], intr := 1 }

theorem autoscan_timely_fails : ¬ AutoscanTimely everySecond [quiet, interrupted] interrupted := by
  unfold AutoscanTimely
  decide +kernel

end Perp.PerpdAutoscan
