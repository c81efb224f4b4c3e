import GameStore.Lib.Calls

/-!
# Programs side by side

Processes work on one shared state of type `σ`, each with a state of its own of
type `ℓ` besides (the readings of its clock, say). A schedule says who makes the
next call. When every call that one process makes late commutes with what the
other has done before it, the first might as well have run alone.
-/

namespace GameStore.Lib

structure Process (Op : Type) (Ans : Op → Type) (ε α ℓ : Type) where
  /-- The calls made so far. -/
  made : List Op
  own : ℓ
  rest : Prog Op Ans ε α

namespace Process

variable {Op : Type} {Ans : Op → Type} {ε α ℓ σ : Type} (h : (o : Op) → ℓ × σ → Ans o × (ℓ × σ))

def begin (own : ℓ) (p : Prog Op Ans ε α) : Process Op Ans ε α ℓ := ⟨[], own, p⟩

/-- The result, once there is one. -/
def result (p : Process Op Ans ε α ℓ) : Option (Except ε α) :=
  match p.rest with
  | .ok a => some (.ok a)
  | .err e => some (.error e)
  | .call _ _ => none

/-- The call to be made next. -/
def next (p : Process Op Ans ε α ℓ) : Option Op :=
  match p.rest with
  | .call o _ => some o
  | _ => none

/-- One call; a process that has a result does nothing. -/
def step (p : Process Op Ans ε α ℓ) (s : σ) : Process Op Ans ε α ℓ × σ :=
  match p.rest with
  | .call o next =>
    (⟨p.made ++ [o], (h o (p.own, s)).2.1, next (h o (p.own, s)).1⟩, (h o (p.own, s)).2.2)
  | _ => (p, s)

theorem step_of_next_none {p : Process Op Ans ε α ℓ} (hp : p.next = none) (s : σ) :
    step h p s = (p, s) := by
  obtain ⟨made, own, rest⟩ := p
  cases rest with
  | ok a => rfl
  | err e => rfl
  | call o next => cases hp

/-- A process that makes a call. -/
theorem next_eq_some {p : Process Op Ans ε α ℓ} {o : Op} (hp : p.next = some o) :
    ∃ next, p = ⟨p.made, p.own, .call o next⟩ := by
  obtain ⟨made, own, rest⟩ := p
  cases rest with
  | ok a => cases hp
  | err e => cases hp
  | call o' next =>
    obtain rfl : o' = o := Option.some.inj hp
    exact ⟨next, rfl⟩

/-- A call does not change what the program would return. -/
theorem run_step (p : Process Op Ans ε α ℓ) (s : σ) :
    Prog.run h (step h p s).1.rest ((step h p s).1.own, (step h p s).2) = Prog.run h p.rest (p.own, s) := by
  obtain ⟨made, own, rest⟩ := p
  cases rest with
  | ok a => rfl
  | err e => rfl
  | call o next => rfl

/-- `n` calls in a row. -/
def alone (n : ℕ) (p : Process Op Ans ε α ℓ) (s : σ) : Process Op Ans ε α ℓ × σ :=
  (fun c => step h c.1 c.2)^[n] (p, s)

theorem alone_succ (n : ℕ) (p : Process Op Ans ε α ℓ) (s : σ) :
    alone h (n + 1) p s = step h (alone h n p s).1 (alone h n p s).2 :=
  Function.iterate_succ_apply' _ _ _

theorem run_alone (n : ℕ) (p : Process Op Ans ε α ℓ) (s : σ) :
    Prog.run h (alone h n p s).1.rest ((alone h n p s).1.own, (alone h n p s).2) =
      Prog.run h p.rest (p.own, s) := by
  induction n with
  | zero => rfl
  | succ n ih =>
    rw [alone_succ, run_step]
    exact ih

theorem run_of_result {p : Process Op Ans ε α ℓ} {r : Except ε α} (hr : p.result = some r) (s : σ) :
    Prog.run h p.rest (p.own, s) = (r, (p.own, s)) := by
  obtain ⟨made, own, rest⟩ := p
  cases rest with
  | ok a =>
    obtain rfl : Except.ok a = r := Option.some.inj hr
    rfl
  | err e =>
    obtain rfl : Except.error e = r := Option.some.inj hr
    rfl
  | call o next => cases hr

end Process

/-! ## Calls that commute -/

section Commutes

variable {Op : Type} {Ans : Op → Type} {ε α ℓ σ : Type} (h : (o : Op) → ℓ × σ → Ans o × (ℓ × σ))

/-- What the caller sees of a call. -/
def answer (o : Op) (l : ℓ) (s : σ) : Ans o × ℓ := ((h o (l, s)).1, (h o (l, s)).2.1)

/-- What the others see of it. -/
def effect (o : Op) (l : ℓ) (s : σ) : σ := (h o (l, s)).2.2

/-- Made by two processes, the calls may change places. -/
structure Commutes (o o' : Op) : Prop where
  left : ∀ l l' s, answer h o l (effect h o' l' s) = answer h o l s
  right : ∀ l l' s, answer h o' l' (effect h o l s) = answer h o' l' s
  effects : ∀ l l' s, effect h o' l' (effect h o l s) = effect h o l (effect h o' l' s)

variable {h}

theorem Commutes.symm {o o' : Op} (hc : Commutes h o o') : Commutes h o' o where
  left l l' s := hc.right l' l s
  right l l' s := hc.left l' l s
  effects l l' s := (hc.effects l' l s).symm

namespace Process

theorem step_eq (made : List Op) (own : ℓ) (o : Op) (next : Ans o → Prog Op Ans ε α) (s : σ) :
    step h ⟨made, own, .call o next⟩ s =
      (⟨made ++ [o], (answer h o own s).2, next (answer h o own s).1⟩, effect h o own s) := rfl

/-- A call that commutes with all a process has done may be made before it. -/
theorem alone_slide {o : Op} {p q : Process Op Ans ε α ℓ} {s t : σ} (n : ℕ)
    (hpq : alone h n p s = (q, t)) (ho : ∀ o' ∈ q.made, Commutes h o o') (l : ℓ) :
    alone h n p (effect h o l s) = (q, effect h o l t) ∧ answer h o l t = answer h o l s := by
  induction n generalizing q t with
  | zero =>
    obtain ⟨rfl, rfl⟩ : p = q ∧ s = t := by simpa [alone] using hpq
    exact ⟨rfl, rfl⟩
  | succ n ih =>
    rw [alone_succ] at hpq
    rw [alone_succ]
    rcases hmid : alone h n p s with ⟨⟨made, own, rest⟩, u⟩
    rw [hmid] at hpq
    cases rest with
    | ok a =>
      obtain ⟨rfl, rfl⟩ : _ = q ∧ u = t := by simpa [step] using hpq
      obtain ⟨hslide, hans⟩ := ih hmid ho
      rw [hslide]
      exact ⟨rfl, hans⟩
    | err e =>
      obtain ⟨rfl, rfl⟩ : _ = q ∧ u = t := by simpa [step] using hpq
      obtain ⟨hslide, hans⟩ := ih hmid ho
      rw [hslide]
      exact ⟨rfl, hans⟩
    | call o' next =>
      rw [step_eq, Prod.mk.injEq] at hpq
      obtain ⟨rfl, rfl⟩ := hpq
      obtain ⟨hslide, hans⟩ := ih hmid fun o'' ho'' => ho o'' (List.mem_append_left _ ho'')
      have hc : Commutes h o o' := ho o' (by simp)
      rw [hslide, step_eq, hc.right, hc.effects]
      exact ⟨rfl, (hc.left l own u).trans hans⟩

end Process

end Commutes

/-! ## Runs of events -/

section Meets

variable {S E : Type} (apply : S → E → S) {cond : S → E → Prop}

/-- Every event of the run meets `cond` in the state it happens in. -/
def Meets (cond : S → E → Prop) : S → List E → Prop
  | _, [] => True
  | s, e :: es => cond s e ∧ Meets cond (apply s e) es

instance Meets.decidable [∀ s e, Decidable (cond s e)] :
    ∀ s es, Decidable (Meets apply cond s es)
  | _, [] => inferInstanceAs (Decidable True)
  | s, e :: es =>
    have : Decidable (Meets apply cond (apply s e) es) := Meets.decidable _ es
    inferInstanceAs (Decidable (cond s e ∧ Meets apply cond (apply s e) es))

variable {apply}

theorem Meets.induction {I : S → Prop} (hI : ∀ s e, cond s e → I s → I (apply s e)) {es : List E} {s : S}
    (hes : Meets apply cond s es) (hs : I s) : I (es.foldl apply s) := by
  induction es generalizing s with
  | nil => exact hs
  | cons e es ih => exact ih hes.2 (hI s e hes.1 hs)

end Meets

/-! ## Two processes -/

section Two

variable {Op : Type} {Ans : Op → Type} {ε α ℓ σ : Type} (h : (o : Op) → ℓ × σ → Ans o × (ℓ × σ))

/-- Two processes and the state they share. -/
structure Two (Op : Type) (Ans : Op → Type) (ε α ℓ σ : Type) where
  proc : Bool → Process Op Ans ε α ℓ
  shared : σ

namespace Two

def begin (own : Bool → ℓ) (p : Bool → Prog Op Ans ε α) (s : σ) : Two Op Ans ε α ℓ σ :=
  ⟨fun b => .begin (own b) (p b), s⟩

/-- The process `b` makes its next call. -/
def step (c : Two Op Ans ε α ℓ σ) (b : Bool) : Two Op Ans ε α ℓ σ :=
  ⟨Function.update c.proc b ((c.proc b).step h c.shared).1, ((c.proc b).step h c.shared).2⟩

def run (sched : List Bool) (c : Two Op Ans ε α ℓ σ) : Two Op Ans ε α ℓ σ := sched.foldl (step h) c

/-- The process `b` does not call for what the other one has already upset. -/
def Ahead (conflict : Op → Op → Prop) (b : Bool) (c : Two Op Ans ε α ℓ σ) (turn : Bool) : Prop :=
  turn = b → ∀ o ∈ (c.proc b).next, ∀ o' ∈ (c.proc !b).made, ¬ conflict o o'

instance {conflict : Op → Op → Prop} [DecidableRel conflict] (b : Bool) (c : Two Op Ans ε α ℓ σ)
    (turn : Bool) : Decidable (Ahead conflict b c turn) :=
  inferInstanceAs (Decidable (turn = b → ∀ o ∈ (c.proc b).next, ∀ o' ∈ (c.proc !b).made, ¬ conflict o o'))

variable {h}

/-- `b` has made its calls first and the other one its own after them. -/
def Serial (b : Bool) (c₀ c : Two Op Ans ε α ℓ σ) : Prop :=
  ∃ n m s, (c₀.proc b).alone h n c₀.shared = (c.proc b, s) ∧
    (c₀.proc !b).alone h m s = (c.proc !b, c.shared)

@[simp] theorem step_proc_self (c : Two Op Ans ε α ℓ σ) (b : Bool) :
    (c.step h b).proc b = ((c.proc b).step h c.shared).1 := Function.update_self _ _ _

@[simp] theorem step_proc_other (c : Two Op Ans ε α ℓ σ) (b : Bool) :
    (c.step h b).proc (!b) = c.proc !b := Function.update_of_ne (by simp) _ _

@[simp] theorem step_proc_first (c : Two Op Ans ε α ℓ σ) (b : Bool) :
    (c.step h !b).proc b = c.proc b := Function.update_of_ne (by simp) _ _

@[simp] theorem step_shared (c : Two Op Ans ε α ℓ σ) (b : Bool) :
    (c.step h b).shared = ((c.proc b).step h c.shared).2 := rfl

theorem serial_step {conflict : Op → Op → Prop} (hconf : ∀ o o', ¬ conflict o o' → Commutes h o o')
    {b : Bool} {c₀ c : Two Op Ans ε α ℓ σ} (turn : Bool) (hturn : Ahead conflict b c turn)
    (hc : Serial (h := h) b c₀ c) : Serial (h := h) b c₀ (c.step h turn) := by
  obtain ⟨n, m, s, hfirst, hsecond⟩ := hc
  by_cases hb : turn = b
  · subst hb
    cases hnext : (c.proc turn).next with
    | none =>
      have hstill : (c.proc turn).step h c.shared = (c.proc turn, c.shared) :=
        Process.step_of_next_none h hnext _
      refine ⟨n, m, s, ?_, ?_⟩
      · rw [step_proc_self, hstill, hfirst]
      · rw [step_proc_other, step_shared, hstill, hsecond]
    | some o =>
      obtain ⟨next, hp⟩ := Process.next_eq_some hnext
      have hcomm : ∀ o' ∈ (c.proc !turn).made, Commutes h o o' :=
        fun o' ho' => hconf o o' (hturn rfl o hnext o' ho')
      obtain ⟨hslide, hans⟩ := Process.alone_slide m hsecond hcomm (c.proc turn).own
      refine ⟨n + 1, m, effect h o (c.proc turn).own s, ?_, ?_⟩
      · rw [Process.alone_succ, hfirst, step_proc_self, hp, Process.step_eq, Process.step_eq, hans]
      · rw [step_proc_other, step_shared, hslide, hp]
        rfl
  · obtain rfl : turn = !b := by cases turn <;> cases b <;> simp_all
    refine ⟨n, m + 1, s, ?_, ?_⟩
    · rw [hfirst, step_proc_first]
    · rw [Process.alone_succ, hsecond, step_proc_self, step_shared]

/-- When no call of `b` comes after a conflicting call of the other process, `b` might
have run first and the other one after it. -/
theorem serial_run {conflict : Op → Op → Prop} (hconf : ∀ o o', ¬ conflict o o' → Commutes h o o')
    {b : Bool} {own : Bool → ℓ} {p : Bool → Prog Op Ans ε α} {s : σ} {sched : List Bool}
    (hsched : Meets (step h) (Ahead conflict b) (begin own p s) sched) {r : Bool → Except ε α}
    (hr : ∀ b, (((begin own p s).run h sched).proc b).result = some (r b)) :
    ∃ l s' l', Prog.run h (p b) (own b, s) = (r b, (l, s')) ∧
      Prog.run h (p !b) (own !b, s') = (r !b, (l', ((begin own p s).run h sched).shared)) := by
  have hstart : Serial (h := h) b (begin own p s) (begin own p s) := ⟨0, 0, s, rfl, rfl⟩
  obtain ⟨n, m, s', hfirst, hsecond⟩ :=
    hsched.induction (fun c turn hturn hc => serial_step hconf turn hturn hc) hstart
  have hrun := Process.run_alone h n ((begin own p s).proc b) s
  have hrun' := Process.run_alone h m ((begin own p s).proc !b) s'
  have hend : Process.alone h n ((begin own p s).proc b) s = (((begin own p s).run h sched).proc b, s') :=
    hfirst
  have hend' : Process.alone h m ((begin own p s).proc !b) s' =
      (((begin own p s).run h sched).proc !b, ((begin own p s).run h sched).shared) := hsecond
  rw [hend, Process.run_of_result h (hr b)] at hrun
  rw [hend', Process.run_of_result h (hr !b)] at hrun'
  exact ⟨_, s', _, hrun.symm, hrun'.symm⟩

end Two

end Two

end GameStore.Lib
