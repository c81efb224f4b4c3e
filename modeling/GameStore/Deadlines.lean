import GameStore.Refusal
import GameStore.Ranges

/-!
# Deadlines

An amount is multiplied, added to the clock, clamped, stored as `u64`, and read back
through a subtraction and a rounding. For clock readings below `2^63` and past the first
second nothing of this wraps.
-/

namespace GameStore

open Lib Std

/-! ## Arithmetic of `i64` -/

theorem checked_eq_some {n : ℤ} {a : Int64} (h : checked n = some a) : a.toInt = n ∧ -2 ^ 63 ≤ n ∧ n < 2 ^ 63 := by
  rw [checked] at h
  split at h
  · rename_i hn
    rw [← Option.some.inj h]
    exact ⟨Int64.toInt_ofInt_of_le hn.1 hn.2, hn⟩
  · cases h

theorem toInt_toInt64 {n : UInt64} (h : n.toNat < 2 ^ 63) : n.toInt64.toInt = n.toNat := by
  change n.toBitVec.toInt = n.toBitVec.toNat
  apply BitVec.toInt_eq_toNat_of_lt
  change 2 * n.toNat < 2 ^ 64
  omega

theorem toInt_saturatingAdd (a b : Int64) :
    (saturatingAdd a b).toInt = max (-2 ^ 63) (min (2 ^ 63 - 1) (a.toInt + b.toInt)) :=
  Int64.toInt_ofInt_of_le (le_max_left _ _) (by omega)

/-! ## Reading the clock -/

/-- All readings to come are the same: it is `now`. -/
def Clock.Still (clock : Clock) (now : UInt64) : Prop := ∀ n, clock.ms.get n = now

/-- The clock after a reading. -/
def Clock.tick (clock : Clock) : Clock := { clock with ms := clock.ms.tail }

theorem Clock.Still.tick {clock : Clock} {now : UInt64} (h : clock.Still now) : clock.tick.Still now :=
  fun n => h (n + 1)

theorem ask_nowMs (w : World) {clock : Clock} {now : UInt64} (h : clock.Still now) :
    ask nowMs (w.at clock) = (.ok now, w.at clock.tick) := by
  change (Except.ok (clock.ms.get 0), w.at clock.tick) = _
  rw [h 0]

section Reading

variable {w : World} {k : Bytes} {m : Meta} {t : UInt64}

theorem run_pttl_due (hm : readMeta w.disk k = some m) (he : m.expireMs ≠ 0) (hdue : m.expireMs ≤ w.ms.head) :
    ((pttl k).run exec w).1 = .ok (-2) := by
  obtain ⟨w', hrun, -⟩ := run_loadLiveMeta_absent (.inr ⟨m, hm, he, hdue⟩)
  rw [pttl, Prog.run_bind_ok _ hrun]
  rfl

/-- The clock is read twice: is the deadline past, and how far is it. -/
theorem run_pttl_live (hm : readMeta w.disk k = some m) (he : m.expireMs ≠ 0) (hlive : ¬ m.expireMs ≤ w.ms.head) :
    ((pttl k).run exec w).1 = .ok (saturatingSub m.expireMs (w.ms.get 1)).toInt64.toInt := by
  have hnow : exec .nowMs w = (w.ms.head, { w with ms := w.ms.tail }) := rfl
  have hload : (loadLiveMeta k).run exec w = (.ok (some m), { w with ms := w.ms.tail }) := by
    rw [loadLiveMeta, Prog.run_bind_ok _ (run_loadMeta hm)]
    dsimp only
    rw [if_pos he, Prog.perform_bind, Prog.run_call, hnow]
    dsimp only
    rw [if_neg hlive]
    rfl
  rw [pttl, Prog.run_bind_ok _ hload]
  dsimp only
  rw [if_neg he]
  rfl

end Reading

/-- What `PTTL` and `TTL` reply of a key with the deadline `d` from the time `now` on:
the milliseconds left, and these in seconds rounded up, both positive; and `-2` when the
deadline has come. -/
def CountsDown (w : World) (k : Bytes) (d : ℕ) (now : UInt64) : Prop :=
  ∀ (cmd : Bytes) (clock : Clock) (t : UInt64), clock.Still t → now ≤ t → t.toNat < 2 ^ 63 →
    (t.toNat < d → ∃ p s : Int64, (pttlCommand [cmd, k] (w.at clock)).1 = .integer p ∧
      (ttlCommand [cmd, k] (w.at clock)).1 = .integer s ∧ p.toInt = d - t.toNat ∧
      s.toInt = ((d - t.toNat) ⌈/⌉ 1000 : ℕ) ∧ 0 < p.toInt ∧ 0 < s.toInt) ∧
    (d ≤ t.toNat → (pttlCommand [cmd, k] (w.at clock)).1 = .integer (-2) ∧
      (ttlCommand [cmd, k] (w.at clock)).1 = .integer (-2))

/-- Seconds, rounded up, without overflow. -/
theorem toInt_roundUp {p : Int64} {n : ℕ} (hp : p.toInt = n) (hn : n + 999 < 2 ^ 63) :
    ((p + 999) / 1000).toInt = (n ⌈/⌉ 1000 : ℕ) := by
  have hsum : (p + 999).toInt = n + 999 := by
    rw [Int64.toInt_add, hp]
    change Int.bmod (n + 999) (2 ^ 64) = n + 999
    rw [Int.bmod_eq_of_le (by omega) (by omega)]
  rw [Int64.toInt_div, hsum, Nat.ceilDiv_eq_add_pred_div]
  change Int.bmod (Int.tdiv (n + 999) 1000) (2 ^ 64) = _
  rw [Int.tdiv_eq_ediv_of_nonneg (by omega), Int.bmod_eq_of_le (by omega) (by omega)]
  omega

theorem countsDown_of_readMeta {w : World} {k : Bytes} {m : Meta} (hm : readMeta w.disk k = some m)
    (hpos : m.expireMs ≠ 0) (hlt : m.expireMs.toNat < 2 ^ 63) {now : UInt64} (hnow : 999 ≤ now.toNat) :
    CountsDown w k m.expireMs.toNat now := by
  intro cmd clock t hstill hle ht
  have hm' : readMeta (w.at clock).disk k = some m := hm
  have hfirst : (w.at clock).ms.head = t := hstill 0
  have hsecond : (w.at clock).ms.get 1 = t := hstill 1
  rw [UInt64.le_iff_toNat_le] at hle
  constructor
  · intro hbefore
    have hlive : ¬ m.expireMs ≤ (w.at clock).ms.head := by
      rw [hfirst, UInt64.le_iff_toNat_le]
      omega
    have hrun := run_pttl_live hm' hpos hlive
    rw [hsecond] at hrun
    have hleft : (saturatingSub m.expireMs t).toNat = m.expireMs.toNat - t.toNat := by
      rw [saturatingSub, if_neg (by rw [UInt64.le_iff_toNat_le]; omega), UInt64.toNat_sub_of_le]
      rw [UInt64.le_iff_toNat_le]
      omega
    set p := (saturatingSub m.expireMs t).toInt64 with hpdef
    have hp : p.toInt = (m.expireMs.toNat - t.toNat : ℕ) := by
      rw [hpdef, toInt_toInt64 (by omega), hleft]
    have hback : Int64.ofInt p.toInt = p := Int64.ofInt_toInt p
    refine ⟨p, (p + 999) / 1000, ?_, ?_, by omega, toInt_roundUp hp (by omega), by omega, ?_⟩
    · rw [pttlCommand, replyWith_apply]
      change replyOf integer ((pttl k).run exec (w.at clock)).1 = _
      rw [hrun, replyOf, integer, hback]
    · rw [ttlCommand, replyWith_apply]
      change replyOf _ ((pttl k).run exec (w.at clock)).1 = _
      rw [hrun, replyOf]
      dsimp only
      rw [hback, if_neg]
      rw [Int64.lt_iff_toInt_lt, hp, Int64.toInt_zero]
      omega
    · rw [toInt_roundUp hp (by omega), Nat.ceilDiv_eq_add_pred_div]
      omega
  · intro hafter
    have hrun : ((pttl k).run exec (w.at clock)).1 = .ok (-2) := by
      apply run_pttl_due hm' hpos
      rw [hfirst, UInt64.le_iff_toNat_le]
      omega
    constructor
    · rw [pttlCommand, replyWith_apply]
      change replyOf integer ((pttl k).run exec (w.at clock)).1 = _
      rw [hrun]
      rfl
    · rw [ttlCommand, replyWith_apply]
      change replyOf _ ((pttl k).run exec (w.at clock)).1 = _
      rw [hrun]
      rfl

/-! ## Setting a deadline -/

section Setting

variable {w : World} {clock : Clock} {now : UInt64} {k : Bytes}

/-- The words of the options, with their units in milliseconds. -/
def optionUnit (opt : Bytes) : Option Int64 :=
  if eqIgnoreAsciiCase opt (utf8 "EX") then some 1000
  else if eqIgnoreAsciiCase opt (utf8 "PX") then some 1
  else none

theorem optionUnit_eq {opt : Bytes} {unit : Int64} (h : optionUnit opt = some unit) :
    unit.toInt = 1000 ∨ unit.toInt = 1 := by
  unfold optionUnit at h
  split_ifs at h
  · rw [← Option.some.inj h]
    exact .inl rfl
  · rw [← Option.some.inj h]
    exact .inr rfl

/-- One option: the amount of it, and then the others. -/
theorem setOptions_cons (opt : Bytes) (rest : List Bytes) (expireMs : UInt64) :
    setOptions (opt :: rest) expireMs = (match optionUnit opt with
      | none => pure (.error SYNTAX_ERROR)
      | some unitMs =>
        if expireMs ≠ 0 then pure (.error SYNTAX_ERROR)
        else match rest with
          | [] => pure (.error SYNTAX_ERROR)
          | raw :: rest => match parseInt raw with
            | none => pure (.error (.error NOT_AN_INTEGER))
            | some n =>
              if n ≤ 0 then pure (.error (invalidExpire "set"))
              else match checkedMul n unitMs with
                | none => pure (.error (invalidExpire "set"))
                | some delta => do
                  match ← ask nowMs with
                  | .error e => pure (.error (engineError e))
                  | .ok now => match checkedAdd delta now.toInt64 with
                    | none => pure (.error (invalidExpire "set"))
                    | some deadline => setOptions rest deadline.toUInt64) := by
  rw [setOptions.eq_def]
  rfl

/-- A second option is refused. -/
theorem setOptions_again {expireMs : UInt64} (he : expireMs ≠ 0) (opt : Bytes) (rest : List Bytes) (w : World) :
    (setOptions (opt :: rest) expireMs w).1 = .error SYNTAX_ERROR := by
  rw [setOptions_cons]
  cases optionUnit opt with
  | none => rfl
  | some unit =>
    dsimp only
    rw [if_pos he]
    rfl

/-- Options that are accepted are one word and one positive amount, and the deadline is
exact. -/
theorem setOptions_ok (hstill : clock.Still now) (hnow : now.toNat < 2 ^ 63) {opts : List Bytes}
    (hopts : opts ≠ []) {deadline : UInt64} (h : (setOptions opts 0 (w.at clock)).1 = .ok deadline) :
    ∃ opt raw unit n, opts = [opt, raw] ∧ optionUnit opt = some unit ∧ parseInt raw = some n ∧ 0 < n.toInt ∧
      (deadline.toNat : ℤ) = now.toNat + n.toInt * unit.toInt ∧ deadline.toNat < 2 ^ 63 := by
  obtain ⟨opt, rest, rfl⟩ := List.exists_cons_of_ne_nil hopts
  rw [setOptions_cons] at h
  cases hunit : optionUnit opt with
  | none =>
    rw [hunit] at h
    cases h
  | some unit =>
  rw [hunit] at h
  dsimp only at h
  rw [if_neg (by decide)] at h
  cases rest with
  | nil => cases h
  | cons raw rest =>
  dsimp only at h
  cases hn : parseInt raw with
  | none =>
    rw [hn] at h
    cases h
  | some n =>
  rw [hn] at h
  dsimp only at h
  split at h
  · cases h
  rename_i hle
  have hpos : 0 < n.toInt := by
    rw [Int64.le_iff_toInt_le, Int64.toInt_zero] at hle
    omega
  cases hdelta : checkedMul n unit with
  | none =>
    rw [hdelta] at h
    cases h
  | some delta =>
  rw [hdelta] at h
  have hmul := (checked_eq_some hdelta).1
  -- The clock is read here.
  dsimp only at h
  rw [CommandM.bind_run (ask_nowMs w hstill)] at h
  dsimp only at h
  cases hsum : checkedAdd delta now.toInt64 with
  | none =>
    rw [hsum] at h
    cases h
  | some sum =>
  rw [hsum] at h
  obtain ⟨hadd, -, hbound⟩ := checked_eq_some hsum
  rw [toInt_toInt64 hnow, hmul] at hadd hbound
  have hunits := optionUnit_eq hunit
  have hge : 0 ≤ sum.toInt := by
    rcases hunits with hu | hu <;> (rw [hu] at hadd; omega)
  have hsum' : (sum.toUInt64.toNat : ℤ) = sum.toInt := toNat_toUInt64 hge
  cases rest with
  | nil =>
    cases h
    refine ⟨opt, raw, unit, n, rfl, hunit, hn, hpos, ?_, ?_⟩
    · rw [hsum', hadd]
      omega
    · omega
  | cons opt' rest =>
    have hne : sum.toUInt64 ≠ 0 := by
      intro hzero
      rw [hzero] at hsum'
      rcases hunits with hu | hu <;> (rw [hu] at hadd; simp at hsum'; omega)
    have hrefused := setOptions_again hne opt' rest (w.at clock.tick)
    rw [hrefused] at h
    cases h

/-- Only the clock is read, and refusals are errors. -/
def Screens {α : Type} (m : CommandM (Except Frame α)) : Prop :=
  ∀ w, (m w).2.toStore = w.toStore ∧ ∀ f, (m w).1 = .error f → f.isError = true

theorem screens_error {α : Type} {f : Frame} (hf : f.isError = true) :
    Screens (pure (.error f) : CommandM (Except Frame α)) :=
  fun _ => ⟨rfl, fun _ hg => Except.error.inj hg ▸ hf⟩

theorem screens_nowMs {α : Type} {f : Except EngineError UInt64 → CommandM (Except Frame α)}
    (hf : ∀ r, Screens (f r)) : Screens (ask nowMs >>= f) := fun w => hf (.ok w.ms.head) { w with ms := w.ms.tail }

theorem isError_engineError (e : EngineError) : (engineError e).isError = true := by
  cases e <;> rfl

theorem screens_setOptions (opts : List Bytes) (expireMs : UInt64) : Screens (setOptions opts expireMs) := by
  fun_induction setOptions opts expireMs with
  | case1 => exact fun w => ⟨rfl, fun f hf => by cases hf⟩
  | case8 =>
    rename_i ih
    refine screens_nowMs fun r => ?_
    cases r with
    | error e => exact screens_error (isError_engineError e)
    | ok now =>
      dsimp only
      split
      · exact screens_error rfl
      · exact ih _
  | _ => exact screens_error rfl

theorem run_set (k value : Bytes) (expireMs : UInt64) (w : World) :
    ∃ w', (set k value expireMs).run exec w = (.ok (), w') ∧ readMeta w'.disk k =
      some { typeId := TYPE_STRING, version := w.nextIssue, expireMs := expireMs, payload := value } := by
  refine ⟨_, rfl, ?_⟩
  exact (readMeta_putMeta (Records.nil : Records k 0 []) w.disk _ k).trans (if_pos rfl)

/-- The key holds a string with the deadline. -/
theorem setCommand_outcome (hstill : clock.Still now) (hfirst : 999 ≤ now.toNat) (hnow : now.toNat < 2 ^ 63)
    {args : List Bytes} (hargs : 3 < args.length) :
    let r := setCommand args (w.at clock)
    (r.1.isError = true ∧ r.2.disk = w.disk) ∨
      ∃ opt raw unit n m, args.drop 3 = [opt, raw] ∧ optionUnit opt = some unit ∧ parseInt raw = some n ∧
        0 < n.toInt ∧ r.1 = .OK ∧ readMeta r.2.disk (arg args 1) = some m ∧ m.payload = arg args 2 ∧
        (m.expireMs.toNat : ℤ) = now.toNat + n.toInt * unit.toInt ∧
        CountsDown r.2 (arg args 1) m.expireMs.toNat now := by
  intro r
  have hopts : args.drop 3 ≠ [] := by
    intro hnil
    rw [List.drop_eq_nil_iff] at hnil
    omega
  obtain ⟨hstore, herror⟩ := screens_setOptions (args.drop 3) 0 (w.at clock)
  have hr : r = setCommand args (w.at clock) := rfl
  cases hout : (setOptions (args.drop 3) 0 (w.at clock)).1 with
  | error f =>
    rw [setCommand, CommandM.bind_run (Prod.ext hout rfl)] at hr
    left
    rw [hr]
    exact ⟨herror f hout, congrArg Store.disk hstore⟩
  | ok deadline =>
    right
    obtain ⟨opt, raw, unit, n, hdrop, hunit, hn, hpos, hsum, hlt⟩ := setOptions_ok hstill hnow hopts hout
    obtain ⟨w', hset, hmeta⟩ := run_set (arg args 1) (arg args 2) deadline
      (setOptions (args.drop 3) 0 (w.at clock)).2
    rw [setCommand, CommandM.bind_run (Prod.ext hout rfl)] at hr
    dsimp only at hr
    rw [replyWith_apply, hset] at hr
    have hne : deadline ≠ 0 := by
      rintro rfl
      rcases optionUnit_eq hunit with hu | hu <;> (rw [hu] at hsum; simp at hsum; omega)
    rw [hr]
    exact ⟨opt, raw, unit, n, _, hdrop, hunit, hn, hpos, rfl, hmeta, rfl, hsum,
      countsDown_of_readMeta hmeta hne hlt hfirst⟩

theorem run_expireAt_live {m : Meta} (hlive : w.liveMeta k = some m) (deadline : UInt64) :
    ∃ w', (expireAt k deadline).run exec w = (.ok true, w') ∧
      readMeta w'.disk k = some { m with expireMs := deadline } := by
  obtain ⟨w', hrun, hst, -⟩ := run_loadLiveMeta_live hlive
  rw [expireAt, Prog.run_bind_ok _ hrun]
  refine ⟨_, rfl, ?_⟩
  exact (readMeta_putMeta (Records.nil : Records k 0 []) w'.disk _ k).trans (if_pos rfl)

/-- The deadline of `EXPIRE`, from the clock and the amount in milliseconds. -/
theorem toNat_expireDeadline (hnow : now.toNat < 2 ^ 63) (delta : Int64) :
    ((max (saturatingAdd now.toInt64 delta) 1).toUInt64.toNat : ℤ) =
      max 1 (min (now.toNat + delta.toInt) (2 ^ 63 - 1)) := by
  have hmax : (max (saturatingAdd now.toInt64 delta) 1).toInt =
      max 1 (min (now.toNat + delta.toInt) (2 ^ 63 - 1)) := by
    rw [toInt_max, toInt_saturatingAdd, toInt_toInt64 hnow, Int64.toInt_one]
    omega
  rw [toNat_toUInt64 (by rw [hmax]; omega), hmax]

theorem expireGeneric_outcome (hstill : clock.Still now) (hfirst : 999 ≤ now.toNat) (hnow : now.toNat < 2 ^ 63)
    {args : List Bytes} {m : Meta} (hlive : (w.at clock).liveMeta (arg args 1) = some m) (unit : Int64)
    (cmd : String) :
    let r := expireGeneric unit cmd args (w.at clock)
    (r.1.isError = true ∧ r.2.disk = w.disk) ∨
      ∃ n d, parseInt (arg args 2) = some n ∧ r.1 = .integer 1 ∧
        readMeta r.2.disk (arg args 1) = some { m with expireMs := d } ∧
        (d.toNat : ℤ) = max 1 (min (now.toNat + n.toInt * unit.toInt) (2 ^ 63 - 1)) ∧
        CountsDown r.2 (arg args 1) d.toNat now := by
  intro r
  have hr : r = expireGeneric unit cmd args (w.at clock) := rfl
  unfold expireGeneric at hr
  cases hn : parseInt (arg args 2) with
  | none =>
    rw [hn] at hr
    left
    rw [hr]
    exact ⟨rfl, rfl⟩
  | some n =>
  rw [hn] at hr
  dsimp only at hr
  cases hdelta : checkedMul n unit with
  | none =>
    rw [hdelta] at hr
    left
    rw [hr]
    exact ⟨rfl, rfl⟩
  | some delta =>
  rw [hdelta] at hr
  right
  have hmul := (checked_eq_some hdelta).1
  set deadline := (max (saturatingAdd now.toInt64 delta) 1).toUInt64 with hdeadline
  have hd := toNat_expireDeadline hnow delta
  rw [← hdeadline] at hd
  -- The clock still says the same when the key is loaded.
  have hlive' : (w.at clock.tick).liveMeta (arg args 1) = some m := by
    have hhead : (w.at clock.tick).ms.head = (w.at clock).ms.head := (hstill.tick 0).trans (hstill 0).symm
    rw [← hlive, World.liveMeta, World.liveMeta, hhead]
    rfl
  obtain ⟨w', hrun, hmeta⟩ := run_expireAt_live hlive' deadline
  have hstep : r = replyWith (expireAt (arg args 1) deadline)
      (fun existed => integer (if existed then 1 else 0)) (w.at clock.tick) := by
    rw [hr]
    dsimp only
    rw [CommandM.bind_run (ask_nowMs w hstill)]
  rw [replyWith_apply, hrun] at hstep
  rw [hmul] at hd
  have hne : deadline ≠ 0 := by
    intro hzero
    rw [hzero] at hd
    simp at hd
    omega
  rw [hstep]
  refine ⟨n, deadline, rfl, rfl, hmeta, hd, ?_⟩
  exact countsDown_of_readMeta hmeta hne (by change deadline.toNat < 2 ^ 63; omega) hfirst

/-- Deadlines are exact and nothing wraps. At a time `now` past the first second, `SET` with
options is refused and stores nothing, or stores the value with the deadline `now + n * unit`
for a positive amount; `EXPIRE` and `PEXPIRE` on a live key are refused and change nothing,
or store `now + n * unit`, at most `2^63 - 1` and at least `1`, which has come already when
the amount is not positive. From then on `PTTL` and `TTL` count down to it. -/
theorem deadlines_exact (w : World) {clock : Clock} {now : UInt64} (hstill : clock.Still now)
    (hfirst : 999 ≤ now.toNat) (hnow : now.toNat < 2 ^ 63) :
    (∀ args : List Bytes, 3 < args.length →
      let r := setCommand args (w.at clock)
      (r.1.isError = true ∧ r.2.disk = w.disk) ∨
        ∃ opt raw unit n m, args.drop 3 = [opt, raw] ∧ optionUnit opt = some unit ∧ parseInt raw = some n ∧
          0 < n.toInt ∧ r.1 = .OK ∧ readMeta r.2.disk (arg args 1) = some m ∧ m.payload = arg args 2 ∧
          (m.expireMs.toNat : ℤ) = now.toNat + n.toInt * unit.toInt ∧
          CountsDown r.2 (arg args 1) m.expireMs.toNat now) ∧
    ∀ (args : List Bytes) (m : Meta), (w.at clock).liveMeta (arg args 1) = some m →
      ∀ handler unit, (handler = expireCommand ∧ unit = 1000 ∨ handler = pexpireCommand ∧ unit = (1 : ℤ)) →
        let r := handler args (w.at clock)
        (r.1.isError = true ∧ r.2.disk = w.disk) ∨
          ∃ n d, parseInt (arg args 2) = some n ∧ r.1 = .integer 1 ∧
            readMeta r.2.disk (arg args 1) = some { m with expireMs := d } ∧
            (d.toNat : ℤ) = max 1 (min (now.toNat + n.toInt * unit) (2 ^ 63 - 1)) ∧
            (n.toInt ≤ 0 → d ≤ now) ∧ CountsDown r.2 (arg args 1) d.toNat now := by
  refine ⟨fun args hargs => setCommand_outcome hstill hfirst hnow hargs, fun args m hlive handler unit hcmd => ?_⟩
  have hpast : ∀ {n d : ℤ}, d = max 1 (min (now.toNat + n * unit) (2 ^ 63 - 1)) → n ≤ 0 → d ≤ now.toNat := by
    intro n d hd hn
    obtain ⟨-, rfl⟩ | ⟨-, rfl⟩ := hcmd <;> omega
  obtain ⟨rfl, rfl⟩ | ⟨rfl, rfl⟩ := hcmd
  · obtain hrefused | ⟨n, d, hn, hreply, hmeta, hd, hcounts⟩ :=
      expireGeneric_outcome hstill hfirst hnow hlive 1000 "expire"
    · exact .inl hrefused
    · refine .inr ⟨n, d, hn, hreply, hmeta, hd, fun hle => ?_, hcounts⟩
      rw [UInt64.le_iff_toNat_le]
      exact_mod_cast hpast hd hle
  · obtain hrefused | ⟨n, d, hn, hreply, hmeta, hd, hcounts⟩ :=
      expireGeneric_outcome hstill hfirst hnow hlive 1 "pexpire"
    · exact .inl hrefused
    · refine .inr ⟨n, d, hn, hreply, hmeta, hd, fun hle => ?_, hcounts⟩
      rw [UInt64.le_iff_toNat_le]
      exact_mod_cast hpast hd hle

/-- The largest `PEXPIRE` amount there is: the deadline is the last one that can be stored. -/
theorem deadlines_exact_last :
    let w := (setCommand [utf8 "SET", Key.k.1, [118]] (World.opened ∅ (stillClock 5000 1))).2
    let args := [utf8 "PEXPIRE", Key.k.1, utf8 "9223372036854775807"]
    (stillClock 6000 1).Still 6000 ∧
      ∃ d, readMeta (pexpireCommand args (w.at (stillClock 6000 1))).2.disk Key.k.1 = some d ∧
        d.expireMs.toNat = 2 ^ 63 - 1 := by
  intro w args
  have hstill : (stillClock 6000 1).Still 6000 := fun _ => rfl
  refine ⟨hstill, ?_⟩
  have hlive : ((w.at (stillClock 6000 1)).liveMeta (arg args 1)).isSome = true := by decide +kernel
  obtain ⟨m, hm⟩ := Option.isSome_iff_exists.1 hlive
  have hn : parseInt (arg args 2) = some 9223372036854775807 := by decide +kernel
  obtain ⟨herr, -⟩ | ⟨n, d, hparse, -, hmeta, hd, -, -⟩ :=
    (deadlines_exact w hstill (by decide) (by decide)).2 args m hm pexpireCommand 1 (.inr ⟨rfl, rfl⟩)
  · exact absurd herr (by decide +kernel)
  · refine ⟨_, hmeta, ?_⟩
    obtain rfl : n = 9223372036854775807 := Option.some.inj (hparse.symm.trans hn)
    have hmax : (d.toNat : ℤ) = 2 ^ 63 - 1 := hd.trans (by decide)
    change d.toNat = 2 ^ 63 - 1
    omega

end Setting

end GameStore
