import Mathlib

/-!
# Programs as trees of calls

A program is a finite-depth tree: it returns, fails, or makes one call and
continues with the answer. A handler gives the calls a meaning over a state.
The same tree is then read in several ways: as a run to its end, as a prefix of
a run (a stop, or an error at the next call), and as a run with somebody else
changing the state before every call.
-/

namespace GameStore.Lib

inductive Prog (Op : Type) (Ans : Op → Type) (ε α : Type) : Type
  | ok (a : α)
  | err (e : ε)
  | call (o : Op) (next : Ans o → Prog Op Ans ε α)

namespace Prog

variable {Op : Type} {Ans : Op → Type} {ε α β : Type}

def bind : Prog Op Ans ε α → (α → Prog Op Ans ε β) → Prog Op Ans ε β
  | ok a, f => f a
  | err e, _ => err e
  | call o next, f => call o fun a => (next a).bind f

instance : Monad (Prog Op Ans ε) where
  pure := ok
  bind := bind

/-- One call, with its answer as the result. -/
def perform (o : Op) : Prog Op Ans ε (Ans o) := call o ok

@[simp] theorem pure_eq (a : α) : (pure a : Prog Op Ans ε α) = ok a := rfl

@[simp] theorem ok_bind (a : α) (f : α → Prog Op Ans ε β) : (ok a >>= f) = f a := rfl

@[simp] theorem err_bind (e : ε) (f : α → Prog Op Ans ε β) :
    ((err e : Prog Op Ans ε α) >>= f) = err e := rfl

@[simp] theorem call_bind (o : Op) (next : Ans o → Prog Op Ans ε α) (f : α → Prog Op Ans ε β) :
    (call o next >>= f) = call o fun a => next a >>= f := rfl

@[simp] theorem perform_bind (o : Op) (f : Ans o → Prog Op Ans ε β) :
    (perform o >>= f) = call o f := rfl

theorem bind_assoc {γ : Type} (p : Prog Op Ans ε α) (f : α → Prog Op Ans ε β)
    (g : β → Prog Op Ans ε γ) : (p >>= f) >>= g = p >>= fun a => f a >>= g := by
  induction p with
  | ok a => rfl
  | err e => rfl
  | call o next ih => exact congrArg (call o) (funext ih)

theorem map_eq (f : α → β) (p : Prog Op Ans ε α) : f <$> p = p >>= fun a => ok (f a) := rfl

/-! ## Running -/

section Run

variable {σ : Type} (h : (o : Op) → σ → Ans o × σ)

def run : Prog Op Ans ε α → σ → Except ε α × σ
  | ok a, s => (.ok a, s)
  | err e, s => (.error e, s)
  | call o next, s => (next (h o s).1).run (h o s).2

@[simp] theorem run_ok (a : α) (s : σ) : run h (ok a : Prog Op Ans ε α) s = (.ok a, s) := rfl

@[simp] theorem run_err (e : ε) (s : σ) : run h (err e : Prog Op Ans ε α) s = (.error e, s) := rfl

@[simp] theorem run_call (o : Op) (next : Ans o → Prog Op Ans ε α) (s : σ) :
    run h (call o next) s = run h (next (h o s).1) (h o s).2 := rfl

theorem run_bind (p : Prog Op Ans ε α) (f : α → Prog Op Ans ε β) (s : σ) :
    run h (p >>= f) s = match run h p s with
      | (.ok a, t) => run h (f a) t
      | (.error e, t) => (.error e, t) := by
  induction p generalizing s with
  | ok a => rfl
  | err e => rfl
  | call o next ih => exact ih _ _

theorem run_bind_ok {p : Prog Op Ans ε α} {s t : σ} {a : α} (hp : run h p s = (.ok a, t))
    (f : α → Prog Op Ans ε β) : run h (p >>= f) s = run h (f a) t := by
  rw [run_bind, hp]

theorem run_bind_err {p : Prog Op Ans ε α} {s t : σ} {e : ε} (hp : run h p s = (.error e, t))
    (f : α → Prog Op Ans ε β) : run h (p >>= f) s = (.error e, t) := by
  rw [run_bind, hp]

theorem run_map (f : α → β) (p : Prog Op Ans ε α) (s : σ) :
    run h (f <$> p) s = ((run h p s).1.map f, (run h p s).2) := by
  rw [map_eq, run_bind]
  rcases run h p s with ⟨_ | _, t⟩ <;> rfl

/-- A loop whose body only reads is a fold over the answers it gets. -/
theorem run_foldlM_reads {γ : Type} {f : β → γ → Prog Op Ans ε β} {g : β → γ → β} {s : σ}
    (hf : ∀ b c, run h (f b c) s = (.ok (g b c), s)) (cs : List γ) (b : β) :
    run h (cs.foldlM f b) s = (.ok (cs.foldl g b), s) := by
  induction cs generalizing b with
  | nil => rfl
  | cons c cs ih =>
    rw [List.foldlM_cons, run_bind_ok h (hf b c)]
    exact ih _

/-- What every call keeps, a run keeps. -/
theorem run_induction {I : σ → Prop} (hI : ∀ o s, I s → I (h o s).2) (p : Prog Op Ans ε α) {s : σ}
    (hs : I s) : I (run h p s).2 := by
  induction p generalizing s with
  | ok a => exact hs
  | err e => exact hs
  | call o next ih => exact ih _ (hI o s hs)

/-- The program and the state left after `n` calls (fewer if it ends before). -/
def after : ℕ → Prog Op Ans ε α → σ → Prog Op Ans ε α × σ
  | n + 1, call o next, s => after n (next (h o s).1) (h o s).2
  | _, p, s => (p, s)

@[simp] theorem after_ok (n : ℕ) (a : α) (s : σ) :
    after h n (ok a : Prog Op Ans ε α) s = (ok a, s) := by
  cases n <;> rfl

theorem run_after (n : ℕ) (p : Prog Op Ans ε α) (s : σ) :
    run h (after h n p s).1 (after h n p s).2 = run h p s := by
  induction n generalizing p s with
  | zero => cases p <;> rfl
  | succ n ih =>
    cases p with
    | ok a => rfl
    | err e => rfl
    | call o next => exact ih _ _

theorem after_add (n n' : ℕ) (p : Prog Op Ans ε α) (s : σ) :
    after h (n + n') p s = after h n' (after h n p s).1 (after h n p s).2 := by
  induction n generalizing p s with
  | zero => cases p <;> simp [after]
  | succ n ih =>
    cases p with
    | ok a => cases n' <;> simp [after]
    | err e => cases n' <;> simp [after]
    | call o next =>
      rw [Nat.add_right_comm]
      exact ih _ _

/-- Some prefix of the run leads to the program `q` in state `t`. -/
def Reaches (p : Prog Op Ans ε α) (s : σ) (q : Prog Op Ans ε α) (t : σ) : Prop :=
  ∃ n, after h n p s = (q, t)

variable {h} in
theorem Reaches.trans {p q r : Prog Op Ans ε α} {s t u : σ} (hpq : Reaches h p s q t)
    (hqr : Reaches h q t r u) : Reaches h p s r u := by
  obtain ⟨n, hn⟩ := hpq
  obtain ⟨n', hn'⟩ := hqr
  exact ⟨n + n', by rw [after_add, hn, hn']⟩

/-- A run passes through the point where its first part has ended. -/
theorem reaches_bind {p : Prog Op Ans ε α} {s t : σ} {a : α} (hp : run h p s = (.ok a, t))
    (f : α → Prog Op Ans ε β) : Reaches h (p >>= f) s (f a) t := by
  induction p generalizing s with
  | ok b =>
    obtain ⟨rfl, rfl⟩ : b = a ∧ s = t := by simpa using hp
    exact ⟨0, by cases h : f b <;> simp [after, h]⟩
  | err e => cases hp
  | call o next ih =>
    obtain ⟨n, hn⟩ := ih _ hp
    exact ⟨n + 1, hn⟩

theorem reaches_call (o : Op) (next : Ans o → Prog Op Ans ε α) (s : σ) :
    Reaches h (call o next) s (next (h o s).1) (h o s).2 := by
  refine ⟨1, ?_⟩
  rw [after]
  cases next (h o s).1 <;> rfl

variable {h} in
theorem Reaches.run_eq {p q : Prog Op Ans ε α} {s t : σ} (hpq : Reaches h p s q t) :
    run h p s = run h q t := by
  obtain ⟨n, hn⟩ := hpq
  rw [← run_after h n p s, hn]

/-- Every call of the run is made in a state in which `good` holds of it. -/
def Always (good : Op → σ → Prop) : Prog Op Ans ε α → σ → Prop
  | ok _, _ => True
  | err _, _ => True
  | call o next, s => good o s ∧ Always good (next (h o s).1) (h o s).2

theorem Always.imp {good good' : Op → σ → Prop} (hg : ∀ o s, good o s → good' o s)
    {p : Prog Op Ans ε α} {s : σ} (hp : Always h good p s) : Always h good' p s := by
  induction p generalizing s with
  | ok a => trivial
  | err e => trivial
  | call o next ih => exact ⟨hg o s hp.1, ih _ hp.2⟩

/-- What holds along a sequence holds along its first part. -/
theorem Always.left {good : Op → σ → Prop} {p : Prog Op Ans ε α} {f : α → Prog Op Ans ε β} {s : σ}
    (hp : Always h good (p >>= f) s) : Always h good p s := by
  induction p generalizing s with
  | ok a => trivial
  | err e => trivial
  | call o next ih => exact ⟨hp.1, ih _ hp.2⟩

theorem Always.right {good : Op → σ → Prop} {p : Prog Op Ans ε α} {f : α → Prog Op Ans ε β} {s t : σ}
    {a : α} (hp : Always h good (p >>= f) s) (hrun : run h p s = (.ok a, t)) : Always h good (f a) t := by
  induction p generalizing s with
  | ok b =>
    obtain ⟨rfl, rfl⟩ : b = a ∧ s = t := by simpa using hrun
    exact hp
  | err e => cases hrun
  | call o next ih => exact ih _ hp.2 hrun

theorem Always.bind {good : Op → σ → Prop} {p : Prog Op Ans ε α} {f : α → Prog Op Ans ε β} {s : σ}
    (hp : Always h good p s) (hf : ∀ a t, Always h good (f a) t) : Always h good (p >>= f) s := by
  induction p generalizing s with
  | ok a => exact hf a s
  | err e => trivial
  | call o next ih => exact ⟨hp.1, ih _ hp.2⟩

theorem Always.foldlM {γ : Type} {good : Op → σ → Prop} {f : β → γ → Prog Op Ans ε β}
    (hf : ∀ b c s, Always h good (f b c) s) (l : List γ) (b : β) (s : σ) : Always h good (l.foldlM f b) s := by
  induction l generalizing b s with
  | nil => trivial
  | cons c l ih =>
    rw [List.foldlM_cons]
    exact (hf b c s).bind h fun b t => ih b t

instance Always.decidable {good : Op → σ → Prop} [∀ o s, Decidable (good o s)] :
    ∀ (p : Prog Op Ans ε α) (s : σ), Decidable (Always h good p s)
  | ok _, _ => inferInstanceAs (Decidable True)
  | err _, _ => inferInstanceAs (Decidable True)
  | call o next, s =>
    have : Decidable (Always h good (next (h o s).1) (h o s).2) := Always.decidable _ _
    inferInstanceAs (Decidable (good o s ∧ Always h good (next (h o s).1) (h o s).2))

/-- A run in which the `n`-th of the calls `bad` selects fails with `e` and does
nothing else. -/
def runFailing (bad : Op → Bool) (e : ε) : ℕ → Prog Op Ans ε α → σ → Except ε α × σ
  | _, ok a, s => (.ok a, s)
  | _, err e', s => (.error e', s)
  | n, call o next, s =>
    if bad o then
      match n with
      | 0 => (.error e, s)
      | n + 1 => runFailing bad e n (next (h o s).1) (h o s).2
    else runFailing bad e n (next (h o s).1) (h o s).2

/-- A run in which `env` may change the state before every call and once more
after the last one. -/
def runEnv : Stream' (σ → σ) → Prog Op Ans ε α → σ → Except ε α × σ
  | env, ok a, s => (.ok a, env.head s)
  | env, err e, s => (.error e, env.head s)
  | env, call o next, s =>
    runEnv env.tail (next (h o (env.head s)).1) (h o (env.head s)).2

theorem runEnv_map (env : Stream' (σ → σ)) (f : α → β) (p : Prog Op Ans ε α) (s : σ) :
    runEnv h env (f <$> p) s = ((runEnv h env p s).1.map f, (runEnv h env p s).2) := by
  induction p generalizing env s with
  | ok a => rfl
  | err e => rfl
  | call o next ih => exact ih _ _ _

/-- Nobody disturbs. -/
theorem runEnv_id (p : Prog Op Ans ε α) (s : σ) : runEnv h (Stream'.const id) p s = run h p s := by
  induction p generalizing s with
  | ok a => rfl
  | err e => rfl
  | call o next ih =>
    rw [runEnv, Stream'.tail_const]
    exact ih _ _

theorem Always.of_forall {good : Op → σ → Prop} (hg : ∀ o s, good o s) (p : Prog Op Ans ε α) (s : σ) :
    Always h good p s := by
  induction p generalizing s with
  | ok a => trivial
  | err e => trivial
  | call o next ih => exact ⟨hg o s, ih _ _⟩

end Run

/-! ## Ways to end -/

/-- Whatever the answers are, the program ends with a result in `Q`. -/
def Ends (Q : Except ε α → Prop) : Prog Op Ans ε α → Prop
  | ok a => Q (.ok a)
  | err e => Q (.error e)
  | call _ next => ∀ a, Ends Q (next a)

theorem Ends.bind {P : Except ε α → Prop} {Q : Except ε β → Prop} {p : Prog Op Ans ε α}
    {f : α → Prog Op Ans ε β} (hp : Ends P p) (hok : ∀ a, P (.ok a) → Ends Q (f a))
    (herr : ∀ e, P (.error e) → Q (.error e)) : Ends Q (p >>= f) := by
  induction p with
  | ok a => exact hok a hp
  | err e => exact herr e hp
  | call o next ih => exact fun a => ih a (hp a)

theorem Ends.foldlM {γ : Type} {Q : Except ε β → Prop} {f : β → γ → Prog Op Ans ε β}
    (hok : ∀ b, Q (.ok b)) (hf : ∀ b c, Ends Q (f b c)) (cs : List γ) (b : β) :
    Ends Q (cs.foldlM f b) := by
  induction cs generalizing b with
  | nil => exact hok b
  | cons c cs ih =>
    rw [List.foldlM_cons]
    exact (hf b c).bind (fun b' _ => ih b') fun _ he => he

theorem Ends.run {σ : Type} {h : (o : Op) → σ → Ans o × σ} {Q : Except ε α → Prop}
    {p : Prog Op Ans ε α} (hp : Ends Q p) (s : σ) : Q (Prog.run h p s).1 := by
  induction p generalizing s with
  | ok a => exact hp
  | err e => exact hp
  | call o next ih => exact ih _ (hp _) _

/-! ## Following a protocol

A ghost state of type `G` records what a program knows and owes. `possible`
restricts the answers that can come back, `trans` lists the calls a program may
make with the ghost state each leads to. `Follows Q g p` says that from `g`
the program `p` makes only listed calls and ends with `Q`. -/

section Follows

variable {G : Type} (possible : G → (o : Op) → Ans o → Prop) (trans : G → (o : Op) → Ans o → G → Prop)

def Follows (Q : Except ε α → G → Prop) : G → Prog Op Ans ε α → Prop
  | g, ok a => Q (.ok a) g
  | g, err e => Q (.error e) g
  | g, call o next => ∀ a, possible g o a → ∃ g', trans g o a g' ∧ Follows Q g' (next a)

variable {possible trans}

theorem Follows.mono {Q Q' : Except ε α → G → Prop} (hQ : ∀ r g, Q r g → Q' r g)
    {g : G} {p : Prog Op Ans ε α} (hp : Follows possible trans Q g p) :
    Follows possible trans Q' g p := by
  induction p generalizing g with
  | ok a => exact hQ _ _ hp
  | err e => exact hQ _ _ hp
  | call o next ih =>
    intro a ha
    obtain ⟨g', ht, hn⟩ := hp a ha
    exact ⟨g', ht, ih a hn⟩

/-- Sequencing: the first program hands its ghost state to the second. -/
theorem Follows.bind {Q : Except ε β → G → Prop} {f : α → Prog Op Ans ε β}
    {g : G} {p : Prog Op Ans ε α}
    (hp : Follows possible trans (fun r g' => match r with
      | .ok a => Follows possible trans Q g' (f a)
      | .error e => Q (.error e) g') g p) :
    Follows possible trans Q g (p >>= f) := by
  induction p generalizing g with
  | ok a => exact hp
  | err e => exact hp
  | call o next ih =>
    intro a ha
    obtain ⟨g', ht, hn⟩ := hp a ha
    exact ⟨g', ht, ih a hn⟩

/-- A program that could not end once it has left `I` does not leave it. -/
theorem Follows.within {Q : Except ε α → G → Prop} {I : G → Prop}
    (hI : ∀ g (p : Prog Op Ans ε α), ¬ I g → ¬ Follows possible trans Q g p)
    {g : G} {p : Prog Op Ans ε α} (hp : Follows possible trans Q g p) :
    Follows possible (fun g o a g' => trans g o a g' ∧ I g') Q g p := by
  induction p generalizing g with
  | ok a => exact hp
  | err e => exact hp
  | call o next ih =>
    intro a ha
    obtain ⟨g', ht, hn⟩ := hp a ha
    exact ⟨g', ⟨ht, by_contra fun hg => hI g' _ hg hn⟩, ih a hn⟩

/-- A program that starts in `I`, which every listed step keeps, takes its steps from `I`. -/
theorem Follows.keeping {Q : Except ε α → G → Prop} {I : G → Prop}
    (hI : ∀ g o a g', trans g o a g' → I g → I g') {g : G} {p : Prog Op Ans ε α} (hg : I g)
    (hp : Follows possible trans Q g p) :
    Follows possible (fun g o a g' => trans g o a g' ∧ I g) Q g p := by
  induction p generalizing g with
  | ok a => exact hp
  | err e => exact hp
  | call o next ih =>
    intro a ha
    obtain ⟨g', ht, hn⟩ := hp a ha
    exact ⟨g', ⟨ht, hg⟩, ih a (hI g o a g' ht hg) hn⟩

theorem Follows.perform {Q : Except ε α → G → Prop} {g : G} {o : Op} {f : Ans o → Prog Op Ans ε α}
    (h : ∀ a, possible g o a → ∃ g', trans g o a g' ∧ Follows possible trans Q g' (f a)) :
    Follows possible trans Q g (perform o >>= f) := h

theorem Follows.map {Q : Except ε β → G → Prop} {f : α → β} {g : G} {p : Prog Op Ans ε α}
    (hp : Follows possible trans (fun r g' => Q (r.map f) g') g p) :
    Follows possible trans Q g (f <$> p) := by
  rw [map_eq]
  apply Follows.bind
  exact hp.mono fun r g' hr => by cases r <;> exact hr

/-- A loop whose body leaves the ghost state where it was and keeps `I`, which may
speak of the elements still to come. -/
theorem Follows.foldlM {γ : Type} {Q : Except ε β → G → Prop} {I : List γ → β → Prop}
    {f : β → γ → Prog Op Ans ε β} {g : G} (hok : ∀ b, I [] b → Q (.ok b) g)
    (hf : ∀ c cs b, I (c :: cs) b → Follows possible trans (fun r g' => match r with
      | .ok b' => g' = g ∧ I cs b'
      | .error e => Q (.error e) g') g (f b c))
    (cs : List γ) {b : β} (hb : I cs b) : Follows possible trans Q g (cs.foldlM f b) := by
  induction cs generalizing b with
  | nil => exact hok b hb
  | cons c cs ih =>
    rw [List.foldlM_cons]
    apply Follows.bind
    apply (hf c cs b hb).mono
    rintro (e | b') g' hr
    · exact hr
    · obtain ⟨rfl, hb'⟩ := hr
      exact ih hb'

end Follows

/-! ## What a protocol gives -/

section Sound

variable {σ G : Type} {h : (o : Op) → σ → Ans o × σ}
  {possible : G → (o : Op) → Ans o → Prop} {trans : G → (o : Op) → Ans o → G → Prop}
  {Q : Except ε α → G → Prop}

/-- `R` ties ghost states to states: a handled call gives a possible answer, and
every listed call keeps the tie. -/
structure Sound (h : (o : Op) → σ → Ans o × σ) (possible : G → (o : Op) → Ans o → Prop)
    (trans : G → (o : Op) → Ans o → G → Prop) (R : G → σ → Prop) : Prop where
  answers : ∀ g s o, R g s → possible g o (h o s).1
  keeps : ∀ g s o g', R g s → trans g o (h o s).1 g' → R g' (h o s).2

variable {R : G → σ → Prop}

/-- What every listed step keeps of the ghost state may be added to the tie. -/
theorem Sound.and_ghost (hs : Sound h possible trans R) {φ : G → Prop}
    (hφ : ∀ g o a g', trans g o a g' → φ g → φ g') :
    Sound h possible trans fun g s => R g s ∧ φ g where
  answers g s o hR := hs.answers g s o hR.1
  keeps g s o g' hR ht := ⟨hs.keeps g s o g' hR.1 ht, hφ g o _ g' ht hR.2⟩

theorem Follows.run (hs : Sound h possible trans R) {g : G} {p : Prog Op Ans ε α} {s : σ}
    (hp : Follows possible trans Q g p) (hR : R g s) :
    ∃ g', Q (Prog.run h p s).1 g' ∧ R g' (Prog.run h p s).2 := by
  induction p generalizing g s with
  | ok a => exact ⟨g, hp, hR⟩
  | err e => exact ⟨g, hp, hR⟩
  | call o next ih =>
    obtain ⟨g', ht, hn⟩ := hp _ (hs.answers g s o hR)
    exact ih _ hn (hs.keeps g s o g' hR ht)

/-- The tie holds at every point of the run, not only at its end. -/
theorem Follows.after (hs : Sound h possible trans R) (n : ℕ) {g : G} {p : Prog Op Ans ε α} {s : σ}
    (hp : Follows possible trans Q g p) (hR : R g s) :
    ∃ g', Follows possible trans Q g' (Prog.after h n p s).1 ∧ R g' (Prog.after h n p s).2 := by
  induction n generalizing g p s with
  | zero => cases p <;> exact ⟨g, hp, hR⟩
  | succ n ih =>
    cases p with
    | ok a => exact ⟨g, hp, hR⟩
    | err e => exact ⟨g, hp, hR⟩
    | call o next =>
      obtain ⟨g', ht, hn⟩ := hp _ (hs.answers g s o hR)
      exact ih hn (hs.keeps g s o g' hR ht)

/-- With a failing call the run ends as before, or short of a call that may fail. -/
theorem Follows.runFailing (hs : Sound h possible trans R) (bad : Op → Bool) (e : ε) (n : ℕ) {g : G}
    {p : Prog Op Ans ε α} {s : σ} (hp : Follows possible trans Q g p) (hR : R g s) :
    ∃ g', R g' (Prog.runFailing h bad e n p s).2 ∧
      (Q (Prog.runFailing h bad e n p s).1 g' ∨
        (Prog.runFailing h bad e n p s).1 = .error e ∧ ∃ o a g'', bad o ∧ trans g' o a g'') := by
  induction p generalizing g s n with
  | ok a => exact ⟨g, hR, .inl hp⟩
  | err e => exact ⟨g, hR, .inl hp⟩
  | call o next ih =>
    obtain ⟨g', ht, hn⟩ := hp _ (hs.answers g s o hR)
    unfold Prog.runFailing
    by_cases hbad : bad o
    · rw [if_pos hbad]
      cases n with
      | zero => exact ⟨g, hR, .inr ⟨rfl, o, _, g', hbad, ht⟩⟩
      | succ n => exact ih _ n hn (hs.keeps g s o g' hR ht)
    · rw [if_neg hbad]
      exact ih _ n hn (hs.keeps g s o g' hR ht)

/-- Simulation against an environment: if the second state may be disturbed
without breaking `S`, and under `S` both states answer every listed call alike,
then the disturbed run returns what the undisturbed one returns. -/
theorem Follows.runEnv {S : G → σ → σ → Prop} {good : Op → σ → Prop}
    (hans : ∀ g s t o, S g s t → possible g o (h o s).1)
    (hkeep : ∀ g s t o g', S g s t → good o s → trans g o (h o s).1 g' →
      (h o t).1 = (h o s).1 ∧ S g' (h o s).2 (h o t).2)
    {env : Stream' (σ → σ)} (henv : ∀ n g s t, S g s t → S g s (env.get n t))
    {g : G} {p : Prog Op Ans ε α} {s t : σ}
    (hp : Follows possible trans Q g p) (hgood : Always h good p s) (hS : S g s t) :
    (Prog.runEnv h env p t).1 = (Prog.run h p s).1 ∧
      ∃ g', Q (Prog.run h p s).1 g' ∧ S g' (Prog.run h p s).2 (Prog.runEnv h env p t).2 := by
  induction p generalizing g s t env with
  | ok a => exact ⟨rfl, g, hp, henv 0 g s t hS⟩
  | err e => exact ⟨rfl, g, hp, henv 0 g s t hS⟩
  | call o next ih =>
    have hS' : S g s (env.head t) := henv 0 g s t hS
    obtain ⟨g', ht, hn⟩ := hp _ (hans g s _ o hS')
    obtain ⟨he, hS''⟩ := hkeep g s _ o g' hS' hgood.1 ht
    simp only [Prog.runEnv, run_call, he]
    exact ih _ (fun n => henv (n + 1)) hn hgood.2 hS''

/-- Simulation between two undisturbed runs. -/
theorem Follows.run_congr {S : σ → σ → Prop} (hans : ∀ g s o, possible g o (h o s).1)
    (hkeep : ∀ g s t o g', S s t → trans g o (h o s).1 g' →
      (h o t).1 = (h o s).1 ∧ S (h o s).2 (h o t).2)
    {g : G} {p : Prog Op Ans ε α} {s t : σ} (hp : Follows possible trans Q g p) (hS : S s t) :
    (Prog.run h p t).1 = (Prog.run h p s).1 ∧ S (Prog.run h p s).2 (Prog.run h p t).2 := by
  have hgood : Always h (fun _ _ => True) p s := Always.of_forall h (fun _ _ => trivial) p s
  have henv : ∀ n (_ : G) s t, S s t → S s ((Stream'.const id : Stream' (σ → σ)).get n t) :=
    fun n g s t hS => hS
  have hsim := Follows.runEnv (S := fun _ => S) (fun g s t o _ => hans g s o)
    (fun g s t o g' hS _ => hkeep g s t o g' hS) henv hp hgood hS
  rw [runEnv_id] at hsim
  obtain ⟨he, -, -, hS'⟩ := hsim
  exact ⟨he, hS'⟩

end Sound

end Prog

end GameStore.Lib
