import Perp.PktSplit
import Perp.PerpdConn

set_option autoImplicit false

/-!
# What `pkt_read()` says

Its result is a count, an end of file or an error. A count of no bytes looks
like an end of file.
-/
namespace Perp.PktOutcome
open Pkt PerpdState PerpdSvdef PerpdConn

/-- How the calls of `read()` in one call of `pkt_read()` come to an end. -/
inductive ReadStop where
  /-- the packet is there, as long as it says -/
  | whole
  /-- there is more than the packet -/
  | overfull
  | again
  /-- `read()` has returned 0 -/
  | eof
  | error
  deriving DecidableEq, Repr

/-- What `read()` delivers to one call of `pkt_read()` that has `n` bytes in `k`,
and how that call ends. -/
def reading : List ReadRet → List UInt8 → ℕ → List UInt8 × ReadStop
  | outs, k, n =>
    if n < toRead k n then
      match outs with
      | [] => ([], .again)
      | .intr :: outs => reading outs k n
      | .again :: _ => ([], .again)
      | .error :: _ => ([], .error)
      | .data bytes :: outs =>
        let bytes := bytes.take (pktSize - n)
        if bytes = [] then ([], .eof)
        else
          let r := reading outs (bufWrite k n bytes) (n + bytes.length)
          (bytes ++ r.1, r.2)
    else if n = toRead k n then ([], .whole)
    else ([], .overfull)

/-- The return for a call that has `n` bytes in the end. -/
def ReadStop.ret (offset n : ℕ) : ReadStop → ℤ
  | .whole | .again => (n : ℤ) - offset
  | .eof => 0
  | .overfull | .error => -1

/-- What each end says of the number of bytes. -/
def ReadStop.Bound (k : List UInt8) (n : ℕ) : ReadStop → Prop
  | .whole => n = toRead k n
  | .overfull => toRead k n < n
  | .again | .eof | .error => n < toRead k n

/-- Where a call of `pkt_read()` may find its packet: at the start, or where an
earlier call has left it. -/
inductive Stopped : List UInt8 → ℕ → Prop where
  | start {k : List UInt8} (hk : k.length = pktSize) : Stopped k 0
  | read {k : List UInt8} {n : ℕ} (outs : List ReadRet) (h : Stopped k n)
      (hr : 0 ≤ (pktRead outs k n).1) :
      Stopped (pktRead outs k n).2 (n + (pktRead outs k n).1.toNat)

/-- The first return of `read()` but for `EINTR` is that there is nothing yet. -/
def firstAgain : List ReadRet → Bool
  | [] => true
  | .again :: _ => true
  | .intr :: outs => firstAgain outs
  | _ => false

/-- One call of `pkt_read()` tells an end of file from nothing yet. -/
structure TellsEof (outs : List ReadRet) (k : List UInt8) (n : ℕ) : Prop where
  eof : (pktRead outs k n).1 = 0 → (reading outs k n).2 = .eof
  stored : 0 < (pktRead outs k n).1 →
    (pktRead outs k n).1 = ((reading outs k n).1.length : ℤ) ∧
      (pktRead outs k n).2 = bufWrite k n (reading outs k n).1 ∧
      (pktHeader ≤ n + (reading outs k n).1.length →
        n + (reading outs k n).1.length ≤ pktLen (pktRead outs k n).2)
  /-- a connection on which nothing has come, neither an end nor an error, stays open -/
  idle : ∀ (s : Sys) (svdefs : List Svdef) (client : Conn), client.pkt = k → client.n = n →
    delivered outs = [] → ends outs = false →
    (perpdConnRead s svdefs client outs).2.connfd = client.connfd

/-- Calls of `pkt_read()` one after the other, each from where the last one has
left off. -/
def readAll : List (List ReadRet) → List UInt8 → ℕ → List UInt8 × ℕ
  | [], k, n => (k, n)
  | outs :: calls, k, n =>
    readAll calls (pktRead outs k n).2 (n + (pktRead outs k n).1.toNat)

theorem bufWrite_nil (k : List UInt8) (n : ℕ) : bufWrite k n [] = k := by
  simp [bufWrite]

theorem bufWrite_append {k : List UInt8} {n : ℕ} {a b : List UInt8} (h : n + a.length ≤ k.length) :
    bufWrite (bufWrite k n a) (n + a.length) b = bufWrite k n (a ++ b) := by
  have hlen : (k.take n ++ a).length = n + a.length := by
    rw [List.length_append, List.length_take]
    omega
  have htake : (bufWrite k n a).take (n + a.length) = k.take n ++ a := bufWrite_take (by omega)
  have hdrop : (bufWrite k n a).drop (n + a.length + b.length) =
      k.drop (n + (a.length + b.length)) := by
    rw [← List.drop_drop, bufWrite, List.drop_left' hlen, List.drop_drop, Nat.add_assoc]
  rw [bufWrite, htake, hdrop, bufWrite, List.length_append, List.append_assoc (k.take n) a b]

theorem toRead_le (k : List UInt8) (n : ℕ) : toRead k n ≤ pktSize := by
  have hb := (byteAt k 2).toNat_lt
  by_cases h : n < pktHeader
  · rw [toRead, if_pos h]
    decide
  · rw [toRead, if_neg h]
    simp only [pktLen, pktSize, pktHeader, pktPayload]
    omega

section
variable {k : List UInt8} {n : ℕ}

theorem reading_done (outs : List ReadRet) (h : ¬ n < toRead k n) :
    reading outs k n = ([], if n = toRead k n then .whole else .overfull) := by
  unfold reading
  rw [if_neg h]
  split <;> rfl

theorem pktReadLoop_done (offset : ℕ) (outs : List ReadRet) (max : ℕ) (h : ¬ n < toRead k n) :
    pktReadLoop offset outs k n max =
      (if n = toRead k n then (n : ℤ) - offset else -1, k) := by
  unfold pktReadLoop
  rw [if_neg h]
  by_cases he : n = toRead k n
  · rw [if_neg (not_not_intro he), if_pos he]
  · rw [if_pos he, if_neg he]

theorem reading_cons (out : ReadRet) (outs : List ReadRet) (h : n < toRead k n) :
    reading (out :: outs) k n = match out with
      | .intr => reading outs k n
      | .again => ([], .again)
      | .error => ([], .error)
      | .data bytes =>
        if bytes.take (pktSize - n) = [] then ([], .eof)
        else
          (bytes.take (pktSize - n) ++ (reading outs (bufWrite k n (bytes.take (pktSize - n)))
            (n + (bytes.take (pktSize - n)).length)).1,
          (reading outs (bufWrite k n (bytes.take (pktSize - n)))
            (n + (bytes.take (pktSize - n)).length)).2) := by
  conv_lhs => unfold reading
  rw [if_pos h]
  cases out <;> rfl

theorem bound_done {outs : List ReadRet} (hn : n ≤ pktSize) (h : ¬ n < toRead k n) :
    n + (reading outs k n).1.length ≤ pktSize ∧
      (reading outs k n).2.Bound (bufWrite k n (reading outs k n).1)
        (n + (reading outs k n).1.length) := by
  rw [reading_done outs h, bufWrite_nil]
  refine ⟨hn, ?_⟩
  by_cases he : n = toRead k n
  · rw [if_pos he]
    exact he
  · rw [if_neg he]
    change toRead k n < n
    omega

theorem reading_bound (outs : List ReadRet) (hk : k.length = pktSize) (hn : n ≤ pktSize) :
    n + (reading outs k n).1.length ≤ pktSize ∧
      (reading outs k n).2.Bound (bufWrite k n (reading outs k n).1)
        (n + (reading outs k n).1.length) := by
  induction outs generalizing k n with
  | nil =>
    by_cases hmore : n < toRead k n
    · rw [reading, if_pos hmore, bufWrite_nil]
      exact ⟨hn, hmore⟩
    · exact bound_done hn hmore
  | cons out outs ih =>
    by_cases hmore : n < toRead k n
    · rw [reading_cons out outs hmore]
      cases out with
      | intr => exact ih hk hn
      | again =>
        rw [bufWrite_nil]
        exact ⟨hn, hmore⟩
      | error =>
        rw [bufWrite_nil]
        exact ⟨hn, hmore⟩
      | data bytes =>
        by_cases hnil : bytes.take (pktSize - n) = []
        · simp only [hnil, if_true]
          rw [bufWrite_nil]
          exact ⟨hn, hmore⟩
        · have hfit : n + (bytes.take (pktSize - n)).length ≤ pktSize := by
            rw [List.length_take]
            omega
          have hnext := @ih (bufWrite k n (bytes.take (pktSize - n)))
            (n + (bytes.take (pktSize - n)).length)
            (by rw [bufWrite_length (by omega), hk]) hfit
          rw [bufWrite_append (by omega)] at hnext
          simp only [hnil, if_false, List.length_append, ← Nat.add_assoc]
          exact hnext
    · exact bound_done hn hmore

theorem loop_done (offset : ℕ) (outs : List ReadRet) (max : ℕ) (h : ¬ n < toRead k n) :
    pktReadLoop offset outs k n max =
      ((reading outs k n).2.ret offset (n + (reading outs k n).1.length),
        bufWrite k n (reading outs k n).1) := by
  rw [pktReadLoop_done offset outs max h, reading_done outs h, bufWrite_nil]
  by_cases he : n = toRead k n
  · rw [if_pos he, if_pos he]
    rfl
  · rw [if_neg he, if_neg he]
    rfl

/-- The loop of `pkt_read()` stores what is delivered to it and returns as its
end says. -/
theorem pktReadLoop_eq (offset : ℕ) (outs : List ReadRet) (hk : k.length = pktSize)
    (hn : n ≤ pktSize) :
    pktReadLoop offset outs k n (pktSize - n) =
      ((reading outs k n).2.ret offset (n + (reading outs k n).1.length),
        bufWrite k n (reading outs k n).1) := by
  induction outs generalizing k n with
  | nil =>
    by_cases hmore : n < toRead k n
    · rw [pktReadLoop, if_pos hmore, reading, if_pos hmore, bufWrite_nil]
      rfl
    · exact loop_done offset [] _ hmore
  | cons out outs ih =>
    by_cases hmore : n < toRead k n
    · rw [reading_cons out outs hmore]
      unfold pktReadLoop
      rw [if_pos hmore]
      cases out with
      | intr => exact ih hk hn
      | again =>
        rw [bufWrite_nil]
        rfl
      | error =>
        rw [bufWrite_nil]
        rfl
      | data bytes =>
        by_cases hnil : bytes.take (pktSize - n) = []
        · simp only [hnil, List.length_nil, if_true]
          rw [bufWrite_nil]
          rfl
        · have hlen : ¬ (bytes.take (pktSize - n)).length = 0 :=
            fun h => hnil (List.length_eq_zero_iff.mp h)
          have hfit : n + (bytes.take (pktSize - n)).length ≤ pktSize := by
            rw [List.length_take]
            omega
          have hmax : pktSize - n - (bytes.take (pktSize - n)).length =
              pktSize - (n + (bytes.take (pktSize - n)).length) := by omega
          have hnext := @ih (bufWrite k n (bytes.take (pktSize - n)))
            (n + (bytes.take (pktSize - n)).length)
            (by rw [bufWrite_length (by omega), hk]) hfit
          rw [bufWrite_append (by omega)] at hnext
          simp only [hnil, hlen, if_false]
          rw [hmax, hnext, List.length_append, Nat.add_assoc]
    · exact loop_done offset _ _ hmore

theorem pktRead_eq (outs : List ReadRet) (hk : k.length = pktSize) (hn : n ≤ pktSize) :
    pktRead outs k n = ((reading outs k n).2.ret n (n + (reading outs k n).1.length),
      bufWrite k n (reading outs k n).1) := by
  rw [pktRead, if_neg (by omega), pktReadLoop_eq n outs hk hn]

/-- A call is never asked to start behind the end of its packet. -/
theorem Stopped.fits (h : Stopped k n) : k.length = pktSize ∧ n ≤ toRead k n := by
  induction h with
  | start hk => exact ⟨hk, Nat.zero_le _⟩
  | @read k n outs h hr ih =>
    obtain ⟨hk, hn⟩ := ih
    have hle := toRead_le k n
    have hbound := reading_bound outs hk (Nat.le_trans hn hle)
    rw [pktRead_eq outs hk (Nat.le_trans hn hle)] at hr ⊢
    generalize reading outs k n = x at hbound hr ⊢
    obtain ⟨bytes, stop⟩ := x
    simp only at hbound hr ⊢
    refine ⟨by rw [bufWrite_length (by omega), hk], ?_⟩
    cases stop with
    | whole =>
      have hto : n + bytes.length = toRead (bufWrite k n bytes) (n + bytes.length) := hbound.2
      have hsum : n + (ReadStop.whole.ret n (n + bytes.length)).toNat = n + bytes.length := by
        simp only [ReadStop.ret]
        omega
      rw [hsum]
      exact Nat.le_of_eq hto
    | again =>
      have hto : n + bytes.length < toRead (bufWrite k n bytes) (n + bytes.length) := hbound.2
      have hsum : n + (ReadStop.again.ret n (n + bytes.length)).toNat = n + bytes.length := by
        simp only [ReadStop.ret]
        omega
      rw [hsum]
      exact Nat.le_of_lt hto
    | overfull => exact absurd (show (0 : ℤ) ≤ -1 from hr) (by decide)
    | error => exact absurd (show (0 : ℤ) ≤ -1 from hr) (by decide)
    | eof =>
      -- the bytes that came before the end lie behind those that are kept
      change n + 0 ≤ toRead (bufWrite k n bytes) (n + 0)
      by_cases h3 : n < pktHeader
      · rw [toRead, Nat.add_zero, if_pos h3]
        omega
      · have hsame : (bufWrite k n bytes).take n = k.take n := by
          have htake := @bufWrite_take k n bytes (by omega)
          have hcut : ((bufWrite k n bytes).take (n + bytes.length)).take n = k.take n := by
            rw [htake, List.take_left' (by rw [List.length_take]; omega)]
          rwa [List.take_take, Nat.min_eq_left (by omega)] at hcut
        rw [toRead, if_neg h3] at hn
        rw [toRead, Nat.add_zero, if_neg h3, pktLen_take hsame (by omega)]
        exact hn

/-- Nothing is delivered to a call that finds nothing yet. -/
theorem reading_first {outs : List ReadRet} (hn : n < toRead k n) (h : firstAgain outs = true) :
    reading outs k n = ([], .again) := by
  induction outs with
  | nil => rw [reading, if_pos hn]
  | cons out outs ih =>
    rw [reading_cons out outs hn]
    cases out with
    | intr => exact ih h
    | again => rfl
    | error => simp [firstAgain] at h
    | data bytes => simp [firstAgain] at h

theorem firstAgain_of_idle {outs : List ReadRet} (hd : delivered outs = [])
    (he : ends outs = false) : firstAgain outs = true := by
  induction outs with
  | nil => rfl
  | cons out outs ih =>
    cases out with
    | intr => exact ih hd he
    | again => rfl
    | error => simp [ends] at he
    | data bytes =>
      cases bytes with
      | nil => simp [ends] at he
      | cons b bytes => simp [delivered] at hd

theorem reading_busy {outs : List ReadRet} (hn : n < toRead k n) (h : firstAgain outs = false) :
    0 < (reading outs k n).1.length ∨ (reading outs k n).2 = .eof ∨
      (reading outs k n).2 = .error := by
  induction outs with
  | nil => simp [firstAgain] at h
  | cons out outs ih =>
    rw [reading_cons out outs hn]
    cases out with
    | intr => exact ih h
    | again => simp [firstAgain] at h
    | error => exact .inr (.inr rfl)
    | data bytes =>
      by_cases hnil : bytes.take (pktSize - n) = []
      · simp [hnil]
      · have hpos := List.length_pos_iff.mpr hnil
        simp only [hnil, if_false, List.length_append]
        omega

theorem stored_of {outs : List ReadRet} (hk : k.length = pktSize) (hn : n ≤ pktSize)
    (hr : 0 < (pktRead outs k n).1) :
    (pktRead outs k n).1 = ((reading outs k n).1.length : ℤ) ∧
      (pktRead outs k n).2 = bufWrite k n (reading outs k n).1 ∧
      (pktHeader ≤ n + (reading outs k n).1.length →
        n + (reading outs k n).1.length ≤ pktLen (pktRead outs k n).2) := by
  have hbound := (reading_bound outs hk hn).2
  rw [pktRead_eq outs hk hn] at hr ⊢
  generalize reading outs k n = x at hbound hr ⊢
  obtain ⟨bytes, stop⟩ := x
  have hto : pktHeader ≤ n + bytes.length →
      toRead (bufWrite k n bytes) (n + bytes.length) = pktLen (bufWrite k n bytes) :=
    fun h3 => by rw [toRead, if_neg (by omega)]
  cases stop with
  | whole =>
    have hle : n + bytes.length = toRead (bufWrite k n bytes) (n + bytes.length) := hbound
    refine ⟨by simp only [ReadStop.ret]; omega, rfl, fun h3 => ?_⟩
    rw [hto h3] at hle
    exact Nat.le_of_eq hle
  | again =>
    have hle : n + bytes.length < toRead (bufWrite k n bytes) (n + bytes.length) := hbound
    refine ⟨by simp only [ReadStop.ret]; omega, rfl, fun h3 => ?_⟩
    rw [hto h3] at hle
    exact Nat.le_of_lt hle
  | overfull => exact absurd (show (0 : ℤ) < -1 from hr) (by decide)
  | error => exact absurd (show (0 : ℤ) < -1 from hr) (by decide)
  | eof => exact absurd (show (0 : ℤ) < 0 from hr) (by decide)

theorem ret_zero {stop : ReadStop} {m : ℕ} (h : stop.ret n (n + m) = 0) (hm : 0 < m) :
    stop = .eof := by
  cases stop with
  | eof => rfl
  | overfull => exact absurd (show (-1 : ℤ) = 0 from h) (by decide)
  | error => exact absurd (show (-1 : ℤ) = 0 from h) (by decide)
  | whole =>
    simp only [ReadStop.ret] at h
    omega
  | again =>
    simp only [ReadStop.ret] at h
    omega

end

/-- Over any calls, the bytes of one packet add up to its length. -/
theorem readAll_whole {p : List UInt8} (hp : Whole p) {calls : List (List ReadRet)}
    {k : List UInt8} {n : ℕ} (hk : k.length = pktSize) (h : k.take n = p.take n) (hn : n ≤ p.length)
    (hd : (calls.map delivered).flatten = p.drop n) (he : ∀ outs ∈ calls, ends outs = false) :
    (readAll calls k n).2 = pktLen p ∧ (readAll calls k n).1.take (pktLen p) = p := by
  induction calls generalizing k n with
  | nil =>
    have hlen : n = p.length := by
      have := List.drop_eq_nil_iff.mp hd.symm
      omega
    subst hlen
    refine ⟨hp.2.symm, ?_⟩
    rw [hp.2]
    exact h.trans p.take_length
  | cons outs calls ih =>
    have hpre : delivered outs <+: p.drop n := ⟨(calls.map delivered).flatten, hd⟩
    have hsize := whole_le hp
    have hspec : ReadSpec p n n outs (pktRead outs k n) := by
      rcases Nat.lt_or_eq_of_le hn with hlt | heq
      · exact pktRead_spec hp hk h hlt hpre
      · subst heq
        rw [pktRead, if_neg (by omega)]
        exact pktReadLoop_whole hp p.length outs hk h hpre _
    rcases hspec.ret with ⟨-, hends, -⟩ | ⟨hr, htake⟩
    · rw [he outs List.mem_cons_self] at hends
      exact absurd hends (by decide)
    · have hsum : n + (pktRead outs k n).1.toNat = n + (delivered outs).length := by omega
      have hle := hpre.length_le
      rw [List.length_drop] at hle
      rw [readAll, hsum]
      refine ih hspec.buffer htake (by omega) ?_ fun o ho => he o (List.mem_cons_of_mem _ ho)
      rw [← List.drop_drop, ← hd, List.map_cons, List.flatten_cons, List.drop_left]

/-- A call of `pkt_read()` tells an end of file from nothing yet if and only if it
wants a byte and the first thing it hears is not that there is none yet. Over all
calls the bytes of a packet add up. -/
theorem pktRead_tells_iff {k : List UInt8} {n : ℕ} (h : Stopped k n) (outs : List ReadRet) :
    (TellsEof outs k n ↔ n < toRead k n ∧ firstAgain outs = false) ∧
      ∀ (p : List UInt8) (calls : List (List ReadRet)) (k : List UInt8), Whole p →
        k.length = pktSize → (calls.map delivered).flatten = p →
        (∀ outs ∈ calls, ends outs = false) →
        (readAll calls k 0).2 = pktLen p ∧ (readAll calls k 0).1.take (pktLen p) = p := by
  obtain ⟨hk, hn⟩ := h.fits
  have hsize := Nat.le_trans hn (toRead_le k n)
  refine ⟨⟨fun ht => ?_, fun ⟨hlt, hfirst⟩ => ?_⟩, fun p calls k hp hk hd he =>
    readAll_whole hp hk (by simp) (Nat.zero_le _) (by simpa using hd) he⟩
  · -- a call to which nothing is delivered returns 0 unless it fails
    have hzero : (reading outs k n).1 = [] → (reading outs k n).2 = .whole ∨
        (reading outs k n).2 = .again → False := by
      intro hnil hstop
      have hr : (pktRead outs k n).1 = 0 := by
        rw [pktRead_eq outs hk hsize, hnil]
        rcases hstop with hs | hs <;> simp [hs, ReadStop.ret]
      have heof := ht.eof hr
      rcases hstop with hs | hs <;> simp [hs] at heof
    by_cases hlt : n < toRead k n
    · refine ⟨hlt, ?_⟩
      by_contra hne
      have hfirst : firstAgain outs = true := by simpa using hne
      rw [reading_first hlt hfirst] at hzero
      exact hzero rfl (.inr rfl)
    · rw [reading_done outs hlt, if_pos (by omega)] at hzero
      exact absurd (hzero rfl (.inl rfl)) id
  · refine ⟨fun hr => ?_, fun hr => stored_of hk hsize hr, fun s svdefs client _ _ hd he => ?_⟩
    · rw [pktRead_eq outs hk hsize] at hr
      rcases reading_busy hlt hfirst with hpos | heof | herr
      · exact ret_zero hr hpos
      · exact heof
      · rw [herr] at hr
        exact absurd (show (-1 : ℤ) = 0 from hr) (by decide)
    · rw [firstAgain_of_idle hd he] at hfirst
      exact absurd hfirst (by decide)

theorem pktRead_tells_iff_start :
    (TellsEof [.data [2, 81]] (List.replicate pktSize 0) 0 ↔
      0 < toRead (List.replicate pktSize 0) 0 ∧ firstAgain [.data [2, 81]] = false) ∧
    (readAll [[.data [2, 81]], [.data [0]]] (List.replicate pktSize 0) 0).2 = pktLen [2, 81, 0] :=
  have hk : (List.replicate pktSize (0 : UInt8)).length = pktSize := List.length_replicate
  have h := pktRead_tells_iff (.start hk) [.data [2, 81]]
  ⟨h.1, (h.2 [2, 81, 0] [[.data [2, 81]], [.data [0]]] _ (by decide) hk rfl (by decide)).1⟩

theorem pktRead_again {k : List UInt8} (hk : k.length = pktSize) :
    reading [.again] k 0 = ([], .again) ∧ pktRead [.again] k 0 = (0, k) := by
  have hread := @reading_first k 0 [.again] (by simp [toRead, pktHeader]) rfl
  refine ⟨hread, ?_⟩
  rw [pktRead_eq [.again] hk (Nat.zero_le _), hread, bufWrite_nil]
  rfl

/-- A connection on which nothing has come: `pkt_read()` returns 0, and perpd closes it. -/
theorem pktRead_idle_closes :
    Stopped (List.replicate pktSize 0) 0 ∧ ¬ TellsEof [.again] (List.replicate pktSize 0) 0 ∧
      ∀ (s : Sys) (svdefs : List Svdef), (perpdConnRead s svdefs
        ⟨some 8, .zero, .reading, List.replicate pktSize 0, 0, 0⟩ [.again]).2.connfd = none := by
  have hk : (List.replicate pktSize (0 : UInt8)).length = pktSize := List.length_replicate
  obtain ⟨hread, hr⟩ := pktRead_again hk
  refine ⟨.start hk, fun ht => ?_, fun s svdefs => ?_⟩
  · have heof := ht.eof (by rw [hr])
    rw [hread] at heof
    exact absurd heof (by decide)
  · simp [perpdConnRead, hr, perpdConnClose, perpdConnReset]

end Perp.PktOutcome
