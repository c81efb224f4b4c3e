import GameStore.Lib.Program

/-!
# The calls a program makes

Which calls stand in a program, and whether it can still fail after one of them.
-/

namespace GameStore.Lib.Prog

variable {Op : Type} {Ans : Op → Type} {ε α β γ : Type}

/-- The call stands somewhere in the program. -/
inductive Makes (o : Op) : Prog Op Ans ε α → Prop
  | here {next : Ans o → Prog Op Ans ε α} : Makes o (call o next)
  | later {o' : Op} {next : Ans o' → Prog Op Ans ε α} (a : Ans o') (h : Makes o (next a)) :
    Makes o (call o' next)

/-- All calls of the program are good. -/
def Only (good : Op → Prop) : Prog Op Ans ε α → Prop
  | ok _ => True
  | err _ => True
  | call o next => good o ∧ ∀ a, Only good (next a)

/-- All calls of the program are good, and so is what it returns, if it does not fail. -/
def Yields (good : Op → Prop) (Q : α → Prop) : Prog Op Ans ε α → Prop
  | ok a => Q a
  | err _ => True
  | call o next => good o ∧ ∀ a, Yields good Q (next a)

/-- After a call in `bad` the program does not fail. -/
def Commits (bad : Op → Prop) : Prog Op Ans ε α → Prop
  | ok _ => True
  | err _ => True
  | call o next => ∀ a, (bad o → Ends (fun r => r.isOk = true) (next a)) ∧ Commits bad (next a)

section Only

variable {good bad : Op → Prop} {p : Prog Op Ans ε α} {f : α → Prog Op Ans ε β}

theorem Only.of_makes (hp : Only good p) {o : Op} (ho : Makes o p) : good o := by
  induction ho with
  | here => exact hp.1
  | later a h ih => exact ih (hp.2 a)

theorem Only.imp {good' : Op → Prop} (hp : Only good p) (h : ∀ o, good o → good' o) : Only good' p := by
  induction p with
  | ok a => trivial
  | err e => trivial
  | call o next ih => exact ⟨h o hp.1, fun a => ih a (hp.2 a)⟩

theorem Only.bind (hp : Only good p) (hf : ∀ a, Only good (f a)) : Only good (p >>= f) := by
  induction p with
  | ok a => exact hf a
  | err e => trivial
  | call o next ih => exact ⟨hp.1, fun a => ih a (hp.2 a)⟩

theorem Only.foldlM {f : β → γ → Prog Op Ans ε β} (hf : ∀ b c, Only good (f b c)) (cs : List γ) (b : β) :
    Only good (cs.foldlM f b) := by
  induction cs generalizing b with
  | nil => trivial
  | cons c cs ih =>
    rw [List.foldlM_cons]
    exact (hf b c).bind ih

/-- A program that keeps to a list of calls makes no others. -/
theorem Follows.only {G : Type} {possible : G → (o : Op) → Ans o → Prop}
    {trans : G → (o : Op) → Ans o → G → Prop} {Q : Except ε α → G → Prop} [∀ o, Nonempty (Ans o)]
    (hpossible : ∀ g o a, possible g o a) (hgood : ∀ g o a g', trans g o a g' → good o) {g : G}
    (hp : Follows possible trans Q g p) : Only good p := by
  induction p generalizing g with
  | ok a => trivial
  | err e => trivial
  | call o next ih =>
    obtain ⟨a₀⟩ : Nonempty (Ans o) := inferInstance
    refine ⟨?_, fun a => ?_⟩
    · obtain ⟨g', ht, -⟩ := hp a₀ (hpossible g o a₀)
      exact hgood g o a₀ g' ht
    · obtain ⟨g', -, hn⟩ := hp a (hpossible g o a)
      exact ih a hn

theorem Only.commits_bind (hp : Only (fun o => ¬ bad o) p) (hf : ∀ a, Commits bad (f a)) :
    Commits bad (p >>= f) := by
  induction p with
  | ok a => exact hf a
  | err e => trivial
  | call o next ih => exact fun a => ⟨fun hbad => absurd hbad hp.1, ih a (hp.2 a)⟩

/-- What never fails may make any call. -/
theorem commits_of_ends (hp : Ends (fun r => r.isOk = true) p) : Commits bad p := by
  induction p with
  | ok a => trivial
  | err e => trivial
  | call o next ih => exact fun a => ⟨fun _ => hp a, ih a (hp a)⟩

end Only

section Yields

variable {good : Op → Prop} {P : α → Prop} {Q : β → Prop} {p : Prog Op Ans ε α} {f : α → Prog Op Ans ε β}

theorem Yields.bind (hp : Yields good P p) (hf : ∀ a, P a → Yields good Q (f a)) : Yields good Q (p >>= f) := by
  induction p with
  | ok a => exact hf a hp
  | err e => trivial
  | call o next ih => exact ⟨hp.1, fun a => ih a (hp.2 a)⟩

theorem Yields.only_bind (hp : Yields good P p) (hf : ∀ a, P a → Only good (f a)) : Only good (p >>= f) := by
  induction p with
  | ok a => exact hf a hp
  | err e => trivial
  | call o next ih => exact ⟨hp.1, fun a => ih a (hp.2 a)⟩

/-- A loop whose body keeps what holds of its state. -/
theorem Yields.foldlM {f : β → γ → Prog Op Ans ε β} (hf : ∀ b c, Q b → Yields good Q (f b c)) (cs : List γ) {b : β}
    (hb : Q b) : Yields good Q (cs.foldlM f b) := by
  induction cs generalizing b with
  | nil => exact hb
  | cons c cs ih =>
    rw [List.foldlM_cons]
    exact (hf b c hb).bind fun b' hb' => ih hb'

end Yields

/-! ## Runs -/

section Run

variable {σ : Type} {h : (o : Op) → σ → Ans o × σ} {good bad : Op → Prop} {p : Prog Op Ans ε α}

/-- What the calls of the program keep, a run of it keeps. -/
theorem run_makes {I : σ → Prop} (hI : ∀ o s, Makes o p → I s → I (h o s).2) {s : σ} (hs : I s) :
    I (run h p s).2 := by
  induction p generalizing s with
  | ok a => exact hs
  | err e => exact hs
  | call o next ih => exact ih _ (fun o' s' ho => hI o' s' (.later _ ho)) (hI o s .here hs)

variable {R : σ → σ → Prop} (hrefl : ∀ s, R s s) (htrans : ∀ s t u, R s t → R t u → R s u)

include hrefl htrans

theorem Only.run (hstep : ∀ o s, good o → R s (h o s).2) (hp : Only good p) (s : σ) : R s (run h p s).2 := by
  induction p generalizing s with
  | ok a => exact hrefl s
  | err e => exact hrefl s
  | call o next ih => exact htrans _ _ _ (hstep o s hp.1) (ih _ (hp.2 _) _)

/-- A run that fails has made none of the calls in `bad`. -/
theorem Commits.run (hstep : ∀ o s, ¬ bad o → R s (h o s).2) (hp : Commits bad p) {s : σ} {e : ε}
    (he : (run h p s).1 = .error e) : R s (run h p s).2 := by
  induction p generalizing s with
  | ok a => exact hrefl s
  | err e => exact hrefl s
  | call o next ih =>
    obtain ⟨hok, hnext⟩ := hp (h o s).1
    have hgood : ¬ bad o := by
      intro hbad
      have hend := (hok hbad).run (h := h) (h o s).2
      rw [run_call] at he
      rw [he] at hend
      cases hend
    exact htrans _ _ _ (hstep o s hgood) (ih _ hnext he)

end Run

end GameStore.Lib.Prog
