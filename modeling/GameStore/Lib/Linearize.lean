import GameStore.Lib.Interleaving

/-!
# Many programs side by side

Any number of processes work on one shared state. Each has a key; calls of processes
with different keys commute, but for one kind of call, the drawing of a ticket, which
a process makes at most once. When processes with the same key are never under way at
the same time, the processes might as well have run one after the other: in the order
in which they drew their tickets, or ended without one. Each of these moments lies
between the first and the last call of its process, so the order is one that an
observer with a watch agrees with.
-/

namespace GameStore.Lib

theorem Process.next_of_result {Op : Type} {Ans : Op → Type} {ε α ℓ : Type} {p : Process Op Ans ε α ℓ}
    {r : Except ε α} (hr : p.result = some r) : p.next = none := by
  obtain ⟨made, own, rest⟩ := p
  cases rest with
  | ok a => rfl
  | err e => rfl
  | call o next => cases hr

theorem Meets.left {S E : Type} {apply : S → E → S} {cond : S → E → Prop} {es es' : List E} {s : S}
    (hes : Meets apply cond s (es ++ es')) : Meets apply cond s es := by
  induction es generalizing s with
  | nil => trivial
  | cons e es ih => exact ⟨hes.1, ih hes.2⟩

section Pool

variable {ι Op : Type} {Ans : Op → Type} {ε α ℓ σ : Type} [DecidableEq ι]
  (h : (o : Op) → ℓ × σ → Ans o × (ℓ × σ))

/-- Processes and the state they share. -/
structure Pool (ι Op : Type) (Ans : Op → Type) (ε α ℓ σ : Type) where
  proc : ι → Process Op Ans ε α ℓ
  shared : σ

namespace Pool

def begin (own : ι → ℓ) (p : ι → Prog Op Ans ε α) (s : σ) : Pool ι Op Ans ε α ℓ σ :=
  ⟨fun i => .begin (own i) (p i), s⟩

/-- The process `i` makes its next call. -/
def step (c : Pool ι Op Ans ε α ℓ σ) (i : ι) : Pool ι Op Ans ε α ℓ σ :=
  ⟨Function.update c.proc i ((c.proc i).step h c.shared).1, ((c.proc i).step h c.shared).2⟩

def run (sched : List ι) (c : Pool ι Op Ans ε α ℓ σ) : Pool ι Op Ans ε α ℓ σ := sched.foldl (step h) c

variable {h}

@[simp] theorem step_proc_self (c : Pool ι Op Ans ε α ℓ σ) (i : ι) :
    (c.step h i).proc i = ((c.proc i).step h c.shared).1 := Function.update_self _ _ _

theorem step_proc_of_ne (c : Pool ι Op Ans ε α ℓ σ) {i j : ι} (hne : j ≠ i) :
    (c.step h i).proc j = c.proc j := Function.update_of_ne hne _ _

theorem step_of_next_none {c : Pool ι Op Ans ε α ℓ σ} {i : ι} (hi : (c.proc i).next = none) : c.step h i = c := by
  rw [step, Process.step_of_next_none h hi, Function.update_eq_self]

theorem run_proc_of_not_mem {sched : List ι} {j : ι} (hj : j ∉ sched) (c : Pool ι Op Ans ε α ℓ σ) :
    (c.run h sched).proc j = c.proc j := by
  induction sched generalizing c with
  | nil => rfl
  | cons i sched ih =>
    rw [List.mem_cons, not_or] at hj
    exact (ih hj.2 (c.step h i)).trans (step_proc_of_ne c hj.1)

theorem run_append (pre post : List ι) (c : Pool ι Op Ans ε α ℓ σ) :
    c.run h (pre ++ post) = (c.run h pre).run h post := List.foldl_append

/-! ## One after the other -/

variable (h) in
/-- The processes of the list have made their calls so far one after the other. -/
def Serial (start now : ι → Process Op Ans ε α ℓ) : List ι → σ → σ → Prop
  | [], s, s' => s = s'
  | i :: order, s, s' => ∃ n t, (start i).alone h n s = (now i, t) ∧ Serial start now order t s'

variable {start now now' : ι → Process Op Ans ε α ℓ}

omit [DecidableEq ι] in
theorem serial_refl (order : List ι) (s : σ) : Serial h start start order s s := by
  induction order with
  | nil => rfl
  | cons i order ih => exact ⟨0, s, rfl, ih⟩

omit [DecidableEq ι] in
theorem serial_append {l₁ l₂ : List ι} {s s' : σ} :
    Serial h start now (l₁ ++ l₂) s s' ↔ ∃ t, Serial h start now l₁ s t ∧ Serial h start now l₂ t s' := by
  induction l₁ generalizing s with
  | nil =>
    constructor
    · intro hs
      exact ⟨s, rfl, hs⟩
    · rintro ⟨t, rfl, hs⟩
      exact hs
  | cons i l₁ ih =>
    constructor
    · rintro ⟨n, u, hu, hs⟩
      obtain ⟨t, ht, hs⟩ := ih.mp hs
      exact ⟨t, ⟨n, u, hu, ht⟩, hs⟩
    · rintro ⟨t, ⟨n, u, hu, ht⟩, hs⟩
      exact ⟨n, u, hu, ih.mpr ⟨t, ht, hs⟩⟩

omit [DecidableEq ι] in
theorem serial_congr {l : List ι} (hl : ∀ i ∈ l, now' i = now i) {s s' : σ} (hs : Serial h start now l s s') :
    Serial h start now' l s s' := by
  induction l generalizing s with
  | nil => exact hs
  | cons i l ih =>
    obtain ⟨n, t, ht, hs⟩ := hs
    refine ⟨n, t, ?_, ih (fun j hj => hl j (List.mem_cons_of_mem _ hj)) hs⟩
    rw [hl i List.mem_cons_self]
    exact ht

omit [DecidableEq ι] in
/-- A call that commutes with all the processes have done may be made before them. -/
theorem serial_slide {l : List ι} {o : Op} (hl : ∀ i ∈ l, ∀ o' ∈ (now i).made, Commutes h o o') (own : ℓ)
    {s s' : σ} (hs : Serial h start now l s s') :
    Serial h start now l (effect h o own s) (effect h o own s') ∧ answer h o own s' = answer h o own s := by
  induction l generalizing s with
  | nil =>
    obtain rfl : s = s' := hs
    exact ⟨rfl, rfl⟩
  | cons i l ih =>
    obtain ⟨n, t, ht, hs⟩ := hs
    obtain ⟨hslide, hans⟩ := Process.alone_slide n ht (hl i List.mem_cons_self) own
    obtain ⟨hs', hans'⟩ := ih (fun j hj => hl j (List.mem_cons_of_mem _ hj)) hs
    exact ⟨⟨n, _, hslide, hs'⟩, hans'.trans hans⟩

/-- A call may be made in its place, if it commutes with all that comes later in the order. -/
theorem serial_step {c : Pool ι Op Ans ε α ℓ σ} {l₁ l₂ : List ι} {i : ι} (hnd : (l₁ ++ i :: l₂).Nodup)
    (hcomm : ∀ o ∈ (c.proc i).next, ∀ j ∈ l₂, ∀ o' ∈ (c.proc j).made, Commutes h o o') {s : σ}
    (hs : Serial h start c.proc (l₁ ++ i :: l₂) s c.shared) :
    Serial h start (c.step h i).proc (l₁ ++ i :: l₂) s (c.step h i).shared := by
  cases hnext : (c.proc i).next with
  | none =>
    rw [step_of_next_none hnext]
    exact hs
  | some o =>
    obtain ⟨next, hp⟩ := Process.next_eq_some hnext
    rw [List.nodup_middle, List.nodup_cons, List.mem_append, not_or] at hnd
    have hother : ∀ l : List ι, i ∉ l → ∀ j ∈ l, (c.step h i).proc j = c.proc j := by
      intro l hi j hj
      apply step_proc_of_ne
      rintro rfl
      exact hi hj
    obtain ⟨t, h₁, n, u, hu, h₂⟩ := serial_append.mp hs
    obtain ⟨hslide, hans⟩ := serial_slide (hcomm o hnext) (c.proc i).own h₂
    have hshared : (c.step h i).shared = effect h o (c.proc i).own c.shared := by
      rw [step, hp]
      rfl
    refine serial_append.mpr ⟨t, ?_, n + 1, effect h o (c.proc i).own u, ?_, ?_⟩
    · exact serial_congr (hother l₁ hnd.1.1) h₁
    · rw [Process.alone_succ, hu, step_proc_self, hp, Process.step_eq, Process.step_eq, hans]
    · rw [hshared]
      exact serial_congr (hother l₂ hnd.1.2) hslide

/-- The results and the last state when the programs run one after the other. -/
def inTurn (h : (o : Op) → ℓ × σ → Ans o × (ℓ × σ)) (own : ι → ℓ) (p : ι → Prog Op Ans ε α) :
    List ι → σ → List (Except ε α) × σ
  | [], s => ([], s)
  | i :: order, s =>
    let r := Prog.run h (p i) (own i, s)
    (r.1 :: (inTurn h own p order r.2.2).1, (inTurn h own p order r.2.2).2)

omit [DecidableEq ι] in
/-- When all of them have ended, they have run one after the other. -/
theorem inTurn_of_serial {own : ι → ℓ} {p : ι → Prog Op Ans ε α} {r : ι → Except ε α} {order : List ι}
    (hr : ∀ i ∈ order, (now i).result = some (r i)) {s s' : σ}
    (hs : Serial h (fun i => .begin (own i) (p i)) now order s s') :
    inTurn h own p order s = (order.map r, s') := by
  induction order generalizing s with
  | nil =>
    obtain rfl : s = s' := hs
    rfl
  | cons i order ih =>
    obtain ⟨n, t, ht, hs⟩ := hs
    have hrun := Process.run_alone h n (.begin (own i) (p i)) s
    rw [ht, Process.run_of_result h (hr i List.mem_cons_self)] at hrun
    have hi : Prog.run h (p i) (own i, s) = (r i, ((now i).own, t)) := hrun.symm
    simp only [inTurn, hi, ih (fun j hj => hr j (List.mem_cons_of_mem _ hj)) hs, List.map_cons]

end Pool

end Pool

/-! ## Who comes before whom -/

section Before

variable {ι : Type} [DecidableEq ι]

/-- An element that is not there comes after all that are. -/
def Before (l : List ι) (i j : ι) : Prop := l.idxOf i < l.idxOf j

theorem Before.mem {l : List ι} {i j : ι} (h : Before l i j) : i ∈ l := by
  apply List.idxOf_lt_length_iff.mp
  exact lt_of_lt_of_le h List.idxOf_le_length

theorem before_of_mem {l : List ι} {i j : ι} (hi : i ∈ l) (hj : j ∉ l) : Before l i j := by
  unfold Before
  rw [List.idxOf_eq_length hj]
  exact List.idxOf_lt_length_of_mem hi

theorem Before.append {l : List ι} {i j : ι} (h : Before l i j) (l' : List ι) : Before (l ++ l') i j := by
  unfold Before at h ⊢
  rw [List.idxOf_append_of_mem (Before.mem h)]
  by_cases hj : j ∈ l
  · rwa [List.idxOf_append_of_mem hj]
  · rw [List.idxOf_append_of_notMem hj]
    have := List.idxOf_lt_length_of_mem (Before.mem h)
    omega

theorem not_before_of_middle {l₁ l₂ : List ι} {i j : ι} (hnd : (l₁ ++ i :: l₂).Nodup) (hj : j ∈ l₂) :
    ¬ Before (l₁ ++ i :: l₂) j i := by
  rw [List.nodup_middle, List.nodup_cons, List.mem_append, not_or] at hnd
  have hne : i ≠ j := by
    rintro rfl
    exact hnd.1.2 hj
  have hj₁ : j ∉ l₁ := fun h => (List.nodup_append.mp hnd.2).2.2 j h j hj rfl
  unfold Before
  rw [List.idxOf_append_of_notMem hnd.1.1, List.idxOf_append_of_notMem hj₁, List.idxOf_cons_self,
    List.idxOf_cons_ne _ hne]
  omega

end Before

/-! ## The moment an operation counts for -/

section Linearize

variable {ι κ Op : Type} {Ans : Op → Type} {ε α ℓ σ : Type} [DecidableEq ι] [DecidableEq Op]
  {h : (o : Op) → ℓ × σ → Ans o × (ℓ × σ)} (key : ι → κ) (ticket : Op)

/-- What is known of a process all the way: whose keys are different do not get into
each other's way, but for their tickets, and nobody draws two. -/
structure Disciplined (h : (o : Op) → ℓ × σ → Ans o × (ℓ × σ)) (key : ι → κ) (ticket : Op)
    (good : ι → Process Op Ans ε α ℓ → Prop) : Prop where
  step : ∀ i p s, good i p → good i (p.step h s).1
  once : ∀ i p, good i p → ticket ∈ p.made → p.next ≠ some ticket
  apart : ∀ i j p q, good i p → good j q → key i ≠ key j → ∀ o ∈ p.next, ∀ o' ∈ q.made,
    o = ticket ∧ o' = ticket ∨ Commutes h o o'

namespace Pool

/-- Nobody with the key of `i` is under way when `i` begins. -/
def Exclusive (c : Pool ι Op Ans ε α ℓ σ) (i : ι) : Prop :=
  (c.proc i).made = [] → ∀ j, j ≠ i → key j = key i → (c.proc j).made ≠ [] → (c.proc j).next = none

instance [Fintype ι] [DecidableEq κ] (c : Pool ι Op Ans ε α ℓ σ) (i : ι) : Decidable (Exclusive key c i) :=
  inferInstanceAs (Decidable ((c.proc i).made = [] →
    ∀ j, j ≠ i → key j = key i → (c.proc j).made ≠ [] → (c.proc j).next = none))

/-- With its next call `i` draws its ticket, or ends without one. -/
def passes (h : (o : Op) → ℓ × σ → Ans o × (ℓ × σ)) (c : Pool ι Op Ans ε α ℓ σ) (i : ι) : Bool :=
  match (c.proc i).next with
  | none => false
  | some o => o == ticket || !(c.proc i).made.contains ticket && ((c.step h i).proc i).next.isNone

/-- The processes whose moment the call of `i` is. -/
def point (h : (o : Op) → ℓ × σ → Ans o × (ℓ × σ)) (c : Pool ι Op Ans ε α ℓ σ) (i : ι) : List ι :=
  if c.passes ticket h i then [i] else []

/-- The processes in the order of these moments. -/
def points (h : (o : Op) → ℓ × σ → Ans o × (ℓ × σ)) : Pool ι Op Ans ε α ℓ σ → List ι → List ι
  | _, [] => []
  | c, i :: sched => c.point ticket h i ++ points h (c.step h i) sched

/-- The processes of `past` are those whose moment is over. -/
structure Ordered (good : ι → Process Op Ans ε α ℓ → Prop) (c : Pool ι Op Ans ε α ℓ σ) (past : List ι) : Prop where
  good : ∀ i, good i (c.proc i)
  nodup : past.Nodup
  mem_iff : ∀ i, i ∈ past ↔ ticket ∈ (c.proc i).made ∨ (c.proc i).made ≠ [] ∧ (c.proc i).next = none
  /-- Of two with one key, who is under way comes second. -/
  turns : ∀ i j, i ≠ j → key i = key j → (c.proc i).made ≠ [] → (c.proc i).next ≠ none →
    (c.proc j).made ≠ [] → Before past j i

variable {key ticket} {good : ι → Process Op Ans ε α ℓ → Prop}

omit [DecidableEq Op] in
/-- All that is under way with the key of `i` comes before `i` when `i` moves. -/
theorem Ordered.before {c : Pool ι Op Ans ε α ℓ σ} {past : List ι} (hc : c.Ordered key ticket good past) {i j : ι}
    (hi : (c.proc i).next ≠ none) (hex : c.Exclusive key i) (hne : j ≠ i) (hkey : key j = key i)
    (hj : (c.proc j).made ≠ []) : Before past j i := by
  by_cases hstart : (c.proc i).made = []
  · have hend : (c.proc j).next = none := hex hstart j hne hkey hj
    apply before_of_mem ((hc.mem_iff j).mpr (.inr ⟨hj, hend⟩))
    intro hmem
    obtain hticket | ⟨hmade, -⟩ := (hc.mem_iff i).mp hmem
    · rw [hstart] at hticket
      cases hticket
    · exact hmade hstart
  · exact hc.turns i j hne.symm hkey.symm hstart hi hj

theorem passes_eq_true {c : Pool ι Op Ans ε α ℓ σ} {i : ι} {o : Op} (hnext : (c.proc i).next = some o) :
    c.passes ticket h i = true ↔
      o = ticket ∨ ticket ∉ (c.proc i).made ∧ ((c.step h i).proc i).next = none := by
  simp [passes, hnext]

theorem mem_point {c : Pool ι Op Ans ε α ℓ σ} {i j : ι} {o : Op} (hnext : (c.proc i).next = some o) :
    j ∈ c.point ticket h i ↔
      j = i ∧ (o = ticket ∨ ticket ∉ (c.proc i).made ∧ ((c.step h i).proc i).next = none) := by
  rw [← passes_eq_true hnext, point]
  split <;> simp_all

omit [DecidableEq Op] in
theorem made_step {c : Pool ι Op Ans ε α ℓ σ} {i : ι} {o : Op} (hnext : (c.proc i).next = some o) :
    ((c.step h i).proc i).made = (c.proc i).made ++ [o] := by
  obtain ⟨next, hp⟩ := Process.next_eq_some hnext
  rw [step_proc_self, hp]
  rfl

theorem Ordered.step (hd : Disciplined h key ticket good) {c : Pool ι Op Ans ε α ℓ σ} {past : List ι}
    (hc : c.Ordered key ticket good past) {i : ι} (hex : c.Exclusive key i) :
    (c.step h i).Ordered key ticket good (past ++ c.point ticket h i) := by
  cases hnext : (c.proc i).next with
  | none =>
    have hpoint : c.point ticket h i = [] := by simp [point, passes, hnext]
    rw [step_of_next_none hnext, hpoint, List.append_nil]
    exact hc
  | some o =>
    have hmove : (c.proc i).next ≠ none := by simp [hnext]
    have hmade : ((c.step h i).proc i).made = (c.proc i).made ++ [o] := made_step hnext
    have hpast : i ∈ past ↔ ticket ∈ (c.proc i).made := by simp [hc.mem_iff, hnext]
    refine ⟨?_, ?_, ?_, ?_⟩
    · intro j
      by_cases hj : j = i
      · subst hj
        rw [step_proc_self]
        exact hd.step j _ _ (hc.good j)
      · rw [step_proc_of_ne c hj]
        exact hc.good j
    · -- Whose moment is over has drawn a ticket, and nobody draws two.
      rw [List.nodup_append]
      refine ⟨hc.nodup, ?_, ?_⟩
      · unfold point
        split <;> simp
      · intro j hj j' hj' he
        obtain ⟨rfl, hpass⟩ := (mem_point hnext).mp hj'
        subst he
        have hticket : ticket ∈ (c.proc j).made := hpast.mp hj
        obtain rfl | ⟨hno, -⟩ := hpass
        · exact hd.once j _ (hc.good j) hticket hnext
        · exact hno hticket
    · intro j
      rw [List.mem_append, mem_point hnext]
      by_cases hj : j = i
      · subst hj
        rw [hmade, hpast]
        simp only [List.mem_append, List.mem_singleton, ne_eq, List.append_eq_nil_iff, List.cons_ne_self,
          and_false, not_false_eq_true, true_and]
        tauto
      · rw [step_proc_of_ne c hj, hc.mem_iff]
        simp [hj]
    · intro a b hne hkey ha hend hb
      by_cases hai : a = i
      · subst hai
        rw [step_proc_of_ne c hne.symm] at hb
        exact (hc.before hmove hex hne.symm hkey.symm hb).append _
      · rw [step_proc_of_ne c hai] at ha hend
        by_cases hbi : b = i
        · -- `b` moves while `a` with its key is under way, so it is under way already.
          subst hbi
          by_cases hstart : (c.proc b).made = []
          · exact absurd (hex hstart a hne hkey ha) hend
          · exact (hc.turns a b hne hkey ha hend hstart).append _
        · rw [step_proc_of_ne c hbi] at hb
          exact (hc.turns a b hne hkey ha hend hb).append _

theorem Ordered.run (hd : Disciplined h key ticket good) {sched : List ι} {c : Pool ι Op Ans ε α ℓ σ}
    {past : List ι} (hex : Meets (Pool.step h) (Exclusive key) c sched) (hc : c.Ordered key ticket good past) :
    (c.run h sched).Ordered key ticket good (past ++ c.points ticket h sched) := by
  induction sched generalizing c past with
  | nil =>
    rw [points, List.append_nil]
    exact hc
  | cons i sched ih =>
    rw [points, ← List.append_assoc]
    exact ih hex.2 (hc.step hd hex.1)

omit [DecidableEq Op] in
theorem made_prefix_run (sched : List ι) (c : Pool ι Op Ans ε α ℓ σ) (i : ι) :
    (c.proc i).made <+: ((c.run h sched).proc i).made := by
  induction sched generalizing c with
  | nil => exact List.prefix_rfl
  | cons j sched ih =>
    refine List.IsPrefix.trans ?_ (ih (c.step h j))
    by_cases hij : i = j
    · subst hij
      cases hnext : (c.proc i).next with
      | none => rw [step_of_next_none hnext]
      | some o =>
        rw [made_step hnext]
        exact List.prefix_append _ _
    · rw [step_proc_of_ne c hij]

omit [DecidableEq Op] in
theorem made_run_ne_nil {sched : List ι} {i : ι} (hi : i ∈ sched) {c : Pool ι Op Ans ε α ℓ σ}
    (hmove : (c.proc i).next ≠ none) : ((c.run h sched).proc i).made ≠ [] := by
  induction sched generalizing c with
  | nil => cases hi
  | cons j sched ih =>
    by_cases hij : i = j
    · subst hij
      obtain ⟨o, ho⟩ := Option.ne_none_iff_exists'.mp hmove
      have hpre : ((c.step h i).proc i).made <+: ((c.run h (i :: sched)).proc i).made := made_prefix_run sched _ i
      rintro hnil
      rw [hnil, List.prefix_nil, made_step ho] at hpre
      simp at hpre
    · apply ih ((List.mem_cons.mp hi).resolve_left hij)
      rwa [step_proc_of_ne c hij]

theorem points_append (pre post : List ι) (c : Pool ι Op Ans ε α ℓ σ) :
    c.points ticket h (pre ++ post) = c.points ticket h pre ++ (c.run h pre).points ticket h post := by
  induction pre generalizing c with
  | nil => rfl
  | cons i pre ih =>
    rw [List.cons_append, points, points, ih, List.append_assoc]
    rfl

omit [DecidableEq Op] in
/-- One call, seen in the order of all the moments that are over and to come. -/
theorem Ordered.serial_step (hd : Disciplined h key ticket good) {start : ι → Process Op Ans ε α ℓ}
    {c : Pool ι Op Ans ε α ℓ σ} {past rest : List ι} (hc : c.Ordered key ticket good past) {i : ι}
    (hex : c.Exclusive key i) (hnd : (past ++ rest).Nodup)
    (hi : (c.proc i).next ≠ none → i ∈ past ++ rest) {s : σ}
    (hs : Serial h start c.proc (past ++ rest) s c.shared) :
    Serial h start (c.step h i).proc (past ++ rest) s (c.step h i).shared := by
  by_cases hmove : (c.proc i).next = none
  · rw [step_of_next_none hmove]
    exact hs
  · obtain ⟨l₁, l₂, hl⟩ := List.append_of_mem (hi hmove)
    have hlater : ∀ j ∈ l₂, ¬ Before (past ++ rest) j i := by
      intro j hj
      rw [hl] at hnd ⊢
      exact not_before_of_middle hnd hj
    rw [hl] at hs hnd ⊢
    refine Pool.serial_step hnd (fun o ho j hj o' ho' => ?_) hs
    have hstarted : (c.proc j).made ≠ [] := by
      intro hnil
      rw [hnil] at ho'
      cases ho'
    have hne : j ≠ i := by
      rintro rfl
      rw [List.nodup_middle, List.nodup_cons, List.mem_append, not_or] at hnd
      exact hnd.1.2 hj
    by_cases hkey : key j = key i
    · exact absurd ((hc.before hmove hex hne hkey hstarted).append rest) (hlater j hj)
    · obtain ⟨rfl, rfl⟩ | hcomm := hd.apart i j _ _ (hc.good i) (hc.good j) (Ne.symm hkey) o ho o' ho'
      · -- Both draw a ticket, and `j` has done so: its moment is over, that of `i` is not.
        refine absurd (Before.append (before_of_mem ?_ ?_) rest) (hlater j hj)
        · exact (hc.mem_iff j).mpr (.inl ho')
        · intro hmem
          obtain hticket | ⟨-, hend⟩ := (hc.mem_iff i).mp hmem
          · exact hd.once i _ (hc.good i) hticket ho
          · exact hmove hend
      · exact hcomm

theorem Ordered.serial_run (hd : Disciplined h key ticket good) {start : ι → Process Op Ans ε α ℓ}
    {sched : List ι} {c : Pool ι Op Ans ε α ℓ σ} {past : List ι} (hc : c.Ordered key ticket good past)
    (hex : Meets (Pool.step h) (Exclusive key) c sched)
    (hend : ∀ i ∈ sched, ((c.run h sched).proc i).next = none) {s : σ}
    (hs : Serial h start c.proc (past ++ c.points ticket h sched) s c.shared) :
    Serial h start (c.run h sched).proc (past ++ c.points ticket h sched) s (c.run h sched).shared := by
  induction sched generalizing c past with
  | nil => exact hs
  | cons i sched ih =>
    have hall : (c.run h (i :: sched)).Ordered key ticket good (past ++ c.points ticket h (i :: sched)) :=
      Ordered.run hd hex hc
    have hmem : (c.proc i).next ≠ none → i ∈ past ++ c.points ticket h (i :: sched) := by
      intro hmove
      apply (hall.mem_iff i).mpr
      exact .inr ⟨made_run_ne_nil List.mem_cons_self hmove, hend i List.mem_cons_self⟩
    have hstep := hc.serial_step hd hex.1 hall.nodup hmem hs
    rw [points, ← List.append_assoc] at hstep ⊢
    exact ih (hc.step hd hex.1) hex.2 (fun j hj => hend j (List.mem_cons_of_mem _ hj)) hstep

/-- All processes come to an end, and none begins while one with the same key is under
way. Then they might as well have run one after the other, in an order that keeps any
two apart that were apart in time. -/
theorem linearizes (hd : Disciplined h key ticket good) {own : ι → ℓ} {p : ι → Prog Op Ans ε α} {s : σ}
    (hgood : ∀ i, good i (.begin (own i) (p i))) (hfirst : ∀ i, (Process.begin (own i) (p i)).next ≠ none)
    {sched : List ι} (hex : Meets (Pool.step h) (Exclusive key) (.begin own p s) sched) {r : ι → Except ε α}
    (hr : ∀ i, (((Pool.begin own p s).run h sched).proc i).result = some (r i)) :
    ∃ order : List ι, order.Nodup ∧ (∀ i, i ∈ order) ∧
      inTurn h own p order s = (order.map r, ((Pool.begin own p s).run h sched).shared) ∧
      ∀ pre post i j, sched = pre ++ post → i ∉ post → j ∉ pre → Before order i j := by
  have hstart : (Pool.begin own p s).Ordered key ticket good [] := by
    refine ⟨hgood, List.nodup_nil, fun i => ?_, fun i _ _ _ hmade => absurd rfl hmade⟩
    simp [Pool.begin, Process.begin]
  have hnext : ∀ i, (((Pool.begin own p s).run h sched).proc i).next = none := by
    intro i
    exact Process.next_of_result (hr i)
  have hmade : ∀ i, (((Pool.begin own p s).run h sched).proc i).made ≠ [] := by
    intro i
    refine made_run_ne_nil (by_contra fun hi => ?_) (hfirst i)
    have hstill := hnext i
    rw [run_proc_of_not_mem hi] at hstill
    exact hfirst i hstill
  -- The order is that of the moments.
  refine ⟨(Pool.begin own p s).points ticket h sched, ?_, ?_, ?_, ?_⟩
  · exact (Ordered.run hd hex hstart).nodup
  · intro i
    exact ((Ordered.run hd hex hstart).mem_iff i).mpr (.inr ⟨hmade i, hnext i⟩)
  · apply inTurn_of_serial fun i _ => hr i
    exact hstart.serial_run hd hex (fun i _ => hnext i) (serial_refl _ s)
  · rintro pre post i j rfl hi hj
    have hpre := Ordered.run hd (Meets.left hex) hstart
    rw [points_append]
    apply Before.append
    rw [← List.nil_append (Pool.points _ _ _ pre)]
    apply before_of_mem
    · apply (hpre.mem_iff i).mpr
      have hlast : ((Pool.begin own p s).run h (pre ++ post)).proc i = ((Pool.begin own p s).run h pre).proc i := by
        rw [run_append, run_proc_of_not_mem hi]
      rw [← hlast]
      exact .inr ⟨hmade i, hnext i⟩
    · rw [hpre.mem_iff j, run_proc_of_not_mem hj]
      simp [Pool.begin, Process.begin]

end Pool

end Linearize

end GameStore.Lib
