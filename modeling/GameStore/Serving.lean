import GameStore.Lib.Transition
import GameStore.Conversation

/-!
# The accept loop and graceful shutdown (`serve_with`)

Every connection has a task of its own, and the tasks take their steps in any order. What
the store replies is left open here: while a command runs, the commands of other
connections change the store.
-/

namespace GameStore

open Lib

/-! ## A connection (`handle_connection`) -/

/-- What the stream of a connection yields: a request, or an error of the codec. -/
abbrev Item := Except String (List Bytes)

/-- The commands that are answered without the store. -/
def localAction (args : List Bytes) (version : RespVersion) (connId : Int64) : Option Action :=
  let name := upperName (arg args 0)
  if name = "HELLO" then some (hello args version connId)
  else if name = "QUIT" then some ⟨.OK, true, none⟩
  else if name = "CLIENT" then some (.ofReply (client args connId))
  else if name = "SELECT" then some (.ofReply (select args))
  else if name = "COMMAND" then some (.ofReply (.array []))
  else none

/-- What `dispatch` returns, if the store has this reply to the request. -/
def actionOf (args : List Bytes) (version : RespVersion) (connId : Int64) (reply : Frame) : Action :=
  (localAction args version connId).getD (.ofReply reply)

/-- Where the loop of a connection is. -/
inductive Doing
  | selecting
  /-- The shutdown was not signalled when it looked; now it polls the stream. -/
  | polling
  | dispatching (args : List Bytes)
  /-- The reply is being sent. -/
  | replying (args : List Bytes) (action : Action)
  | refusing (reason : String)
  | ended (clean : Bool)

structure Connection where
  connId : Int64
  version : RespVersion
  doing : Doing
  /-- What the stream has yielded. -/
  items : List Item
  /-- What has been sent: the request it is for, the reply, and the version it is encoded for. -/
  sent : List (Option (List Bytes) × Frame × RespVersion)

def Connection.new (connId : Int64) : Connection := ⟨connId, .v2, .selecting, [], []⟩

inductive Progress
  /-- The first branch of the `select!`. -/
  | looked
  /-- Nothing is there yet, or something woke the task. -/
  | idle
  | yielded (item : Option Item)
  | dispatched (reply : Frame)
  | sent (ok : Bool)

def Connection.ended (c : Connection) : Bool := c.doing matches .ended _

def Connection.step (signalled : Bool) (c : Connection) (p : Progress) : Option Connection :=
  match c.doing, p with
  | .selecting, .looked => some { c with doing := if signalled then .ended true else .polling }
  | .polling, .idle => some { c with doing := .selecting }
  | .polling, .yielded none => some { c with doing := .ended true }
  | .polling, .yielded (some (.ok args)) => some { c with
      items := c.items ++ [.ok args]
      doing := if args = [] then .selecting else .dispatching args }
  | .polling, .yielded (some (.error reason)) => some { c with
      items := c.items ++ [.error reason]
      doing := .refusing reason }
  | .dispatching args, .dispatched reply =>
    let action := actionOf args c.version c.connId reply
    some { c with version := action.wireVersion c.version, doing := .replying args action }
  | .replying args action, .sent ok =>
    if ok then some { c with
      sent := c.sent ++ [(some args, action.reply, c.version)]
      doing := if action.close then .ended true else .selecting }
    else some { c with doing := .ended false }
  | .refusing reason, .sent ok =>
    -- Whether it could be sent makes no difference.
    some { c with
      sent := if ok then c.sent ++ [(none, .error s!"ERR Protocol error: {reason}", c.version)] else c.sent
      doing := .ended false }
  | _, _ => none

/-! ## The server (`serve_with`) -/

/-- Where `serve_with` is. -/
inductive Main
  | accepting
  /-- The loop is left, but no connection has been told. -/
  | stopped
  | draining
  | returned
deriving DecidableEq

/-- A task of the set: its connection, once it has begun. -/
structure Task where
  conn : Option Connection
  joined : Bool

structure Server where
  main : Main
  /-- `NEXT_CONN_ID`. -/
  nextConnId : Int64
  /-- The gauge `datanode_conn_active`. -/
  connActive : ℤ
  tasks : List Task

def Server.start (nextConnId : Int64) : Server := ⟨.accepting, nextConnId, 0, []⟩

/-- What `shutdown.changed()` tells. -/
def Server.signalled (s : Server) : Bool := s.main = .draining ∨ s.main = .returned

inductive Occurrence
  | accepted
  | acceptFailed
  | shutdown
  | signalled
  | started (i : ℕ)
  | progress (i : ℕ) (p : Progress)
  | joined (i : ℕ)
  | returned

def Server.step (s : Server) : Occurrence → Option Server
  | .accepted => if s.main = .accepting then some { s with tasks := s.tasks ++ [⟨none, false⟩] } else none
  | .acceptFailed => if s.main = .accepting then some s else none
  | .shutdown => if s.main = .accepting then some { s with main := .stopped } else none
  | .signalled => if s.main = .stopped then some { s with main := .draining } else none
  | .started i => match s.tasks[i]? with
    | some ⟨none, false⟩ => some { s with
        nextConnId := s.nextConnId + 1
        connActive := s.connActive + 1
        tasks := s.tasks.set i ⟨some (.new s.nextConnId), false⟩ }
    | _ => none
  | .progress i p => match s.tasks[i]? with
    | some ⟨some c, false⟩ => (c.step s.signalled p).map fun c' => { s with
        connActive := if c'.ended then s.connActive - 1 else s.connActive
        tasks := s.tasks.set i ⟨some c', false⟩ }
    | _ => none
  | .joined i => match s.tasks[i]? with
    | some ⟨some c, false⟩ =>
      if s.main = .draining ∧ c.ended then some { s with tasks := s.tasks.set i ⟨some c, true⟩ } else none
    | _ => none
  | .returned => if s.main = .draining ∧ s.tasks.all Task.joined then some { s with main := .returned } else none

/-! ## What a step can do -/

/-- What dispatch returns depends on the store in the reply only. -/
theorem dispatch_actionOf (ft : FloatText) (args : List Bytes) (version : RespVersion) (connId : Int64) (w : World) :
    (dispatch ft args version connId w).1 =
      actionOf args version connId (dispatch ft args version connId w).1.reply := by
  unfold dispatch actionOf localAction
  dsimp only
  split_ifs <;> rfl

/-- All that a step of a connection changes. -/
inductive Connection.Change (signalled : Bool) (c : Connection) : Connection → Prop
  | looked (hdoing : c.doing = .selecting) :
    Change signalled c { c with doing := if signalled then .ended true else .polling }
  | idle (hdoing : c.doing = .polling) : Change signalled c { c with doing := .selecting }
  | closed (hdoing : c.doing = .polling) : Change signalled c { c with doing := .ended true }
  | read (hdoing : c.doing = .polling) (args : List Bytes) : Change signalled c { c with
      items := c.items ++ [.ok args]
      doing := if args = [] then .selecting else .dispatching args }
  | broken (hdoing : c.doing = .polling) (reason : String) : Change signalled c { c with
      items := c.items ++ [.error reason]
      doing := .refusing reason }
  | dispatched {args : List Bytes} (hdoing : c.doing = .dispatching args) (reply : Frame) :
    Change signalled c { c with
      version := (actionOf args c.version c.connId reply).wireVersion c.version
      doing := .replying args (actionOf args c.version c.connId reply) }
  | replied {args : List Bytes} {action : Action} (hdoing : c.doing = .replying args action) :
    Change signalled c { c with
      sent := c.sent ++ [(some args, action.reply, c.version)]
      doing := if action.close then .ended true else .selecting }
  | lost {args : List Bytes} {action : Action} (hdoing : c.doing = .replying args action) :
    Change signalled c { c with doing := .ended false }
  | refused {reason : String} (hdoing : c.doing = .refusing reason) (ok : Bool) : Change signalled c { c with
      sent := if ok then c.sent ++ [(none, .error s!"ERR Protocol error: {reason}", c.version)] else c.sent
      doing := .ended false }

theorem Connection.change_of_step {c c' : Connection} {signalled : Bool} {p : Progress}
    (h : c.step signalled p = some c') : c.Change signalled c' := by
  unfold Connection.step at h
  split at h
  case h_1 hdoing => exact Option.some.inj h ▸ .looked hdoing
  case h_2 hdoing => exact Option.some.inj h ▸ .idle hdoing
  case h_3 hdoing => exact Option.some.inj h ▸ .closed hdoing
  case h_4 args hdoing => exact Option.some.inj h ▸ .read hdoing args
  case h_5 reason hdoing => exact Option.some.inj h ▸ .broken hdoing reason
  case h_6 reply hdoing => exact Option.some.inj h ▸ .dispatched hdoing reply
  case h_7 ok hdoing =>
    split at h
    · exact Option.some.inj h ▸ .replied hdoing
    · exact Option.some.inj h ▸ .lost hdoing
  case h_8 ok hdoing => exact Option.some.inj h ▸ .refused hdoing ok
  case h_9 => cases h

/-- All that a step of the server changes. -/
inductive Server.Change (s : Server) : Server → Prop
  | failed (hmain : s.main = .accepting) : Change s s
  | accepted (hmain : s.main = .accepting) : Change s { s with tasks := s.tasks ++ [⟨none, false⟩] }
  | stopped (hmain : s.main = .accepting) : Change s { s with main := .stopped }
  | draining (hmain : s.main = .stopped) : Change s { s with main := .draining }
  | started {i : ℕ} (hi : s.tasks[i]? = some ⟨none, false⟩) : Change s { s with
      nextConnId := s.nextConnId + 1
      connActive := s.connActive + 1
      tasks := s.tasks.set i ⟨some (.new s.nextConnId), false⟩ }
  | progress {i : ℕ} {c c' : Connection} (hi : s.tasks[i]? = some ⟨some c, false⟩)
      (hc : c.Change s.signalled c') : Change s { s with
      connActive := if c'.ended then s.connActive - 1 else s.connActive
      tasks := s.tasks.set i ⟨some c', false⟩ }
  | joined {i : ℕ} {c : Connection} (hi : s.tasks[i]? = some ⟨some c, false⟩) (hmain : s.main = .draining)
      (hc : c.ended = true) : Change s { s with tasks := s.tasks.set i ⟨some c, true⟩ }
  | returned (hmain : s.main = .draining) (hall : s.tasks.all Task.joined = true) :
      Change s { s with main := .returned }

theorem Server.change_of_step {s t : Server} {e : Occurrence} (h : s.step e = some t) : s.Change t := by
  cases e with
  | accepted =>
    obtain ⟨hmain, ⟨⟩⟩ := Option.ite_none_right_eq_some.mp h
    exact .accepted hmain
  | acceptFailed =>
    obtain ⟨hmain, ⟨⟩⟩ := Option.ite_none_right_eq_some.mp h
    exact .failed hmain
  | shutdown =>
    obtain ⟨hmain, ⟨⟩⟩ := Option.ite_none_right_eq_some.mp h
    exact .stopped hmain
  | signalled =>
    obtain ⟨hmain, ⟨⟩⟩ := Option.ite_none_right_eq_some.mp h
    exact .draining hmain
  | started i =>
    rw [Server.step] at h
    split at h
    · rename_i hi
      obtain rfl := Option.some.inj h
      exact .started hi
    · cases h
  | progress i p =>
    rw [Server.step] at h
    split at h
    · rename_i c hi
      obtain ⟨c', hc, rfl⟩ := Option.map_eq_some_iff.mp h
      exact .progress hi (Connection.change_of_step hc)
    · cases h
  | joined i =>
    rw [Server.step] at h
    split at h
    · rename_i c hi
      obtain ⟨hmain, ⟨⟩⟩ := Option.ite_none_right_eq_some.mp h
      exact .joined hi hmain.1 hmain.2
    · cases h
  | returned =>
    obtain ⟨hmain, ⟨⟩⟩ := Option.ite_none_right_eq_some.mp h
    exact .returned hmain.1 hmain.2

/-! ## The course of a connection -/

/-- The request an item asks the server to answer. -/
def Item.asked : Item → Option (Option (List Bytes))
  | .ok args => if args = [] then none else some (some args)
  | .error _ => some none

/-- What a connection has sent when its loop is at its head or has ended; whether it goes on. -/
inductive Transcript (connId : Int64) :
    List Item → List (Option (List Bytes) × Frame × RespVersion) → RespVersion → Bool → Prop
  | opened : Transcript connId [] [] .v2 true
  | skipped {items sent version} (h : Transcript connId items sent version true) :
    Transcript connId (items ++ [.ok []]) sent version true
  | answered {items sent version args} (h : Transcript connId items sent version true) (hargs : args ≠ [])
    (reply : Frame) :
    Transcript connId (items ++ [.ok args])
      (sent ++ [(some args, (actionOf args version connId reply).reply,
        (actionOf args version connId reply).wireVersion version)])
      ((actionOf args version connId reply).wireVersion version) (!(actionOf args version connId reply).close)
  | refused {items sent version} (h : Transcript connId items sent version true) (reason : String) :
    Transcript connId (items ++ [.error reason])
      (sent ++ [(none, .error s!"ERR Protocol error: {reason}", version)]) version false

/-- What a connection has yet to answer, by where its loop is. -/
def Doing.Owes (connId : Int64) (version now : RespVersion) (goesOn : Bool) (rest : List Item) : Doing → Prop
  | .selecting => rest = [] ∧ goesOn = true ∧ now = version
  | .polling => rest = [] ∧ goesOn = true ∧ now = version
  | .dispatching args => rest = [.ok args] ∧ args ≠ [] ∧ goesOn = true ∧ now = version
  | .replying args action => rest = [.ok args] ∧ args ≠ [] ∧ goesOn = true ∧
    ∃ reply, action = actionOf args version connId reply ∧ now = action.wireVersion version
  | .refusing reason => rest = [.error reason] ∧ goesOn = true ∧ now = version
  | .ended clean => rest = [] ∨ clean = false ∧ goesOn = true ∧ rest.length = 1

/-- The connection has kept to its loop. -/
def Connection.Conducted (c : Connection) : Prop :=
  ∃ before rest version goesOn, c.items = before ++ rest ∧ Transcript c.connId before c.sent version goesOn ∧
    c.doing.Owes c.connId version c.version goesOn rest

theorem conducted_new (connId : Int64) : (Connection.new connId).Conducted :=
  ⟨[], [], .v2, true, rfl, .opened, rfl, rfl, rfl⟩

theorem Connection.Conducted.step {c c' : Connection} {signalled : Bool} (hstep : c.Change signalled c')
    (h : c.Conducted) : c'.Conducted := by
  obtain ⟨before, rest, version, goesOn, hitems, htrans, howes⟩ := h
  cases hstep with
  | looked hdoing =>
    rw [hdoing] at howes
    obtain ⟨rfl, rfl, hnow⟩ := howes
    refine ⟨before, [], version, true, hitems, htrans, ?_⟩
    cases signalled with
    | true => exact .inl rfl
    | false => exact ⟨rfl, rfl, hnow⟩
  | idle hdoing =>
    rw [hdoing] at howes
    exact ⟨before, rest, version, goesOn, hitems, htrans, howes⟩
  | closed hdoing =>
    rw [hdoing] at howes
    exact ⟨before, rest, version, goesOn, hitems, htrans, .inl howes.1⟩
  -- An empty request is skipped at once.
  | read hdoing args =>
    rw [hdoing] at howes
    obtain ⟨rfl, rfl, hnow⟩ := howes
    rw [List.append_nil] at hitems
    by_cases hargs : args = []
    · subst hargs
      refine ⟨before ++ [.ok []], [], version, true, ?_, htrans.skipped, rfl, rfl, hnow⟩
      rw [List.append_nil, hitems]
    · refine ⟨before, [.ok args], version, true, by rw [hitems], htrans, ?_⟩
      rw [if_neg hargs]
      exact ⟨rfl, hargs, rfl, hnow⟩
  | broken hdoing reason =>
    rw [hdoing] at howes
    obtain ⟨rfl, rfl, hnow⟩ := howes
    rw [List.append_nil] at hitems
    exact ⟨before, [.error reason], version, true, by rw [hitems], htrans, rfl, rfl, hnow⟩
  | @dispatched args hdoing reply =>
    rw [hdoing] at howes
    obtain ⟨rfl, hargs, rfl, hnow⟩ := howes
    refine ⟨before, [.ok args], version, true, hitems, htrans, rfl, hargs, rfl, reply, ?_⟩
    rw [hnow]
    exact ⟨rfl, rfl⟩
  -- Now the request that was owed is answered.
  | @replied args action hdoing =>
    rw [hdoing] at howes
    obtain ⟨rfl, hargs, rfl, reply, rfl, hnow⟩ := howes
    have hnext := htrans.answered hargs reply
    rw [← hnow] at hnext
    refine ⟨before ++ [.ok args], [], _, _, by rw [List.append_nil, hitems], hnext, ?_⟩
    cases (actionOf args version c.connId reply).close with
    | true => exact .inl rfl
    | false => exact ⟨rfl, rfl, rfl⟩
  | lost hdoing =>
    rw [hdoing] at howes
    refine ⟨before, rest, version, goesOn, hitems, htrans, .inr ⟨rfl, howes.2.2.1, ?_⟩⟩
    rw [howes.1]
    rfl
  | @refused reason hdoing ok =>
    rw [hdoing] at howes
    obtain ⟨rfl, rfl, hnow⟩ := howes
    cases ok with
    | false => exact ⟨before, [.error reason], version, true, hitems, htrans, .inr ⟨rfl, rfl, rfl⟩⟩
    | true =>
      have hnext := htrans.refused reason
      rw [← hnow] at hnext
      exact ⟨before ++ [.error reason], [], _, _, by rw [List.append_nil, hitems], hnext, .inl rfl⟩

/-! ## The course of the server -/

def Task.connId (task : Task) : Option Int64 := task.conn.map Connection.connId

/-- What a task counts for in the gauge. -/
def Task.active (task : Task) : ℤ := task.conn.elim 0 fun c => if c.ended then 0 else 1

/-- The first `k` connection ids given out. -/
def issued (first : Int64) (k : ℕ) : List Int64 := (List.range k).map fun n => first + Int64.ofNat n

theorem issued_succ (first : Int64) (k : ℕ) : issued first (k + 1) = issued first k ++ [first + Int64.ofNat k] := by
  simp [issued, List.range_succ]

/-- The ids are all different until they have gone round. -/
theorem issued_nodup (first : Int64) {k : ℕ} (hk : k ≤ 2 ^ 64) : (issued first k).Nodup := by
  refine List.nodup_range.map_on ?_
  intro n hn m hm heq
  have hbits : Int64.ofNat n = Int64.ofNat m := (Int64.add_right_inj first).mp heq
  have hnat := congrArg (fun v => v.toBitVec.toNat) hbits
  rw [List.mem_range] at hn hm
  simp at hnat
  omega

/-- What every run of the server keeps. -/
structure Server.Consistent (first : Int64) (s : Server) : Prop where
  conducted : ∀ task ∈ s.tasks, ∀ c, task.conn = some c → c.Conducted
  ids : ∃ k, s.nextConnId = first + Int64.ofNat k ∧ (s.tasks.filterMap Task.connId).Perm (issued first k)
  active : s.connActive = (s.tasks.map Task.active).sum
  joined : ∀ task ∈ s.tasks, task.joined = true → ∃ c, task.conn = some c ∧ c.ended = true
  returned : s.main = .returned → ∀ task ∈ s.tasks, task.joined = true

theorem consistent_start (first : Int64) : (Server.start first).Consistent first where
  conducted task htask := absurd htask List.not_mem_nil
  ids := ⟨0, (Int64.add_zero first).symm, .nil⟩
  active := rfl
  joined task htask := absurd htask List.not_mem_nil
  returned h := by cases h

theorem Connection.Change.connId_eq {c c' : Connection} {signalled : Bool} (h : c.Change signalled c') :
    c'.connId = c.connId := by
  cases h <;> rfl

/-- Only a connection that has not ended moves. -/
theorem Connection.Change.ended_eq_false {c c' : Connection} {signalled : Bool} (h : c.Change signalled c') :
    c.ended = false := by
  cases h <;> simp [Connection.ended, *]

section Consistent

variable {first : Int64} {s t : Server}

/-- A task that keeps its id. -/
theorem perm_connIds {i : ℕ} {task task' : Task} (hi : s.tasks[i]? = some task) (hid : task'.connId = task.connId) :
    ((s.tasks.set i task').filterMap Task.connId).Perm (s.tasks.filterMap Task.connId) := by
  obtain ⟨others, hl, hset⟩ := exists_others hi
  refine ((hset task').filterMap _).trans (.trans ?_ (hl.filterMap _).symm)
  rw [List.filterMap_cons, List.filterMap_cons, hid]

/-- A task that gets one. -/
theorem perm_connIds_started {i : ℕ} {c : Connection} (hi : s.tasks[i]? = some ⟨none, false⟩) :
    ((s.tasks.set i ⟨some c, false⟩).filterMap Task.connId).Perm (c.connId :: s.tasks.filterMap Task.connId) := by
  obtain ⟨others, hl, hset⟩ := exists_others hi
  refine ((hset _).filterMap _).trans (.trans ?_ ((hl.filterMap _).cons c.connId).symm)
  exact .refl _

/-- A task is spawned. -/
theorem Server.Consistent.spawn (h : s.Consistent first) (hmain : s.main = .accepting) :
    Server.Consistent first { s with tasks := s.tasks ++ [⟨none, false⟩] } := by
  refine ⟨?_, ?_, ?_, ?_, ?_⟩
  · intro task htask c hc
    obtain htask | htask := List.mem_append.mp htask
    · exact h.conducted task htask c hc
    · rw [List.mem_singleton.mp htask] at hc
      cases hc
  · obtain ⟨k, hnext, hperm⟩ := h.ids
    refine ⟨k, hnext, ?_⟩
    rw [List.filterMap_append]
    exact (List.append_nil _).symm ▸ hperm
  · simpa [Task.active] using h.active
  · intro task htask hjoined
    obtain htask | htask := List.mem_append.mp htask
    · exact h.joined task htask hjoined
    · rw [List.mem_singleton.mp htask] at hjoined
      cases hjoined
  · intro hret
    cases hmain.symm.trans hret

/-- A task begins: its connection takes the next id. -/
theorem Server.Consistent.start (h : s.Consistent first) {i : ℕ} (hi : s.tasks[i]? = some ⟨none, false⟩) :
    Server.Consistent first { s with
      nextConnId := s.nextConnId + 1
      connActive := s.connActive + 1
      tasks := s.tasks.set i ⟨some (.new s.nextConnId), false⟩ } := by
  refine ⟨?_, ?_, ?_, ?_, ?_⟩
  · refine forall_mem_set h.conducted fun c hc => ?_
    rw [← Option.some.inj hc]
    exact conducted_new _
  · obtain ⟨k, hnext, hperm⟩ := h.ids
    refine ⟨k + 1, ?_, ?_⟩
    · rw [Int64.ofNat_add, ← Int64.add_assoc, ← hnext]
      rfl
    · rw [issued_succ, ← hnext]
      refine (perm_connIds_started hi).trans ((hperm.cons _).trans ?_)
      exact (List.perm_append_singleton _ _).symm
  · have hsum := sum_map_set Task.active hi ⟨some (.new s.nextConnId), false⟩
    have hold : Task.active ⟨none, false⟩ = 0 := rfl
    have hnew : Task.active ⟨some (.new s.nextConnId), false⟩ = 1 := rfl
    have hactive := h.active
    dsimp only
    omega
  · exact forall_mem_set h.joined fun hjoined => by cases hjoined
  · intro hret
    cases h.returned hret _ (List.mem_of_getElem? hi)

/-- A task that has begun moves on: its connection keeps its id, and the gauge follows it. -/
theorem Server.Consistent.move (h : s.Consistent first) {i : ℕ} {c c' : Connection} {joined : Bool} {active : ℤ}
    (hi : s.tasks[i]? = some ⟨some c, false⟩) (hconducted : c'.Conducted) (hid : c'.connId = c.connId)
    (hjoined : joined = true → c'.ended = true)
    (hactive : active + Task.active ⟨some c, false⟩ = s.connActive + Task.active ⟨some c', joined⟩) :
    Server.Consistent first { s with connActive := active, tasks := s.tasks.set i ⟨some c', joined⟩ } := by
  refine ⟨?_, ?_, ?_, ?_, ?_⟩
  · refine forall_mem_set h.conducted fun c'' hc'' => ?_
    rw [← Option.some.inj hc'']
    exact hconducted
  · obtain ⟨k, hnext, hperm⟩ := h.ids
    refine ⟨k, hnext, (perm_connIds hi ?_).trans hperm⟩
    exact congrArg some hid
  · have hsum := sum_map_set Task.active hi ⟨some c', joined⟩
    have hbefore := h.active
    dsimp only
    omega
  · exact forall_mem_set h.joined fun hjoin => ⟨c', rfl, hjoined hjoin⟩
  · -- It has not returned: this task is not joined yet.
    intro hret
    cases h.returned hret _ (List.mem_of_getElem? hi)

theorem Server.Consistent.step (h : s.Consistent first) (hstep : s.Change t) : t.Consistent first := by
  cases hstep with
  | failed => exact h
  | accepted hmain => exact h.spawn hmain
  | stopped hmain => exact ⟨h.conducted, h.ids, h.active, h.joined, fun hret => by cases hret⟩
  | draining hmain => exact ⟨h.conducted, h.ids, h.active, h.joined, fun hret => by cases hret⟩
  | returned hmain hall =>
    exact ⟨h.conducted, h.ids, h.active, h.joined, fun _ task htask => List.all_eq_true.mp hall task htask⟩
  | started hi => exact h.start hi
  | @progress i c c' hi hc =>
    have hconducted : c.Conducted := h.conducted _ (List.mem_of_getElem? hi) c rfl
    refine h.move hi (hconducted.step hc) hc.connId_eq (fun hjoined => by cases hjoined) ?_
    have hold : Task.active ⟨some c, false⟩ = 1 := by simp [Task.active, hc.ended_eq_false]
    have hnew : Task.active ⟨some c', false⟩ = if c'.ended then 0 else 1 := rfl
    split_ifs at hnew ⊢ <;> omega
  | @joined i c hi hmain hc =>
    have hconducted : c.Conducted := h.conducted _ (List.mem_of_getElem? hi) c rfl
    exact h.move hi hconducted rfl (fun _ => hc) rfl

theorem consistent_happens {es : List Occurrence} (h : Happens Server.step (.start first) es s) : s.Consistent first :=
  h.invariant (fun _ _ _ hstep hs => hs.step (Server.change_of_step hstep)) (consistent_start first)

end Consistent

/-! ## What a client can rely on -/

/-- Nothing is read after it. -/
def Item.closes : Item → Bool
  | .ok args => upperName (arg args 0) = "QUIT"
  | .error _ => true

theorem close_actionOf (args : List Bytes) (version : RespVersion) (connId : Int64) (reply : Frame) :
    (actionOf args version connId reply).close = decide (upperName (arg args 0) = "QUIT") := by
  unfold actionOf localAction
  dsimp only
  split_ifs with hhello hquit
  · rw [hhello, Option.getD_some]
    unfold hello
    split
    · rfl
    · split <;> rfl
  · rw [hquit]
    rfl
  all_goals
    rw [decide_eq_false hquit]
    rfl

section Transcript

variable {connId : Int64} {items : List Item} {sent : List (Option (List Bytes) × Frame × RespVersion)}
  {version : RespVersion} {goesOn : Bool}

/-- Every request gets one reply, in order. -/
theorem Transcript.requests (h : Transcript connId items sent version goesOn) :
    sent.map Prod.fst = items.filterMap Item.asked := by
  induction h with
  | opened => rfl
  | skipped h ih => simp [ih, Item.asked]
  | answered h hargs reply ih => simp [ih, Item.asked, hargs]
  | refused h reason ih => simp [ih, Item.asked]

/-- It goes on until an item closes it. -/
theorem Transcript.goesOn_eq (h : Transcript connId items sent version goesOn) :
    goesOn = items.all fun item => !item.closes := by
  have hempty : Item.closes (.ok []) = false := by decide
  induction h with
  | opened => rfl
  | skipped h ih => simp [← ih, hempty]
  | answered h hargs reply ih =>
    rw [close_actionOf, List.all_append, ← ih]
    simp [Item.closes]
  | refused h reason ih => simp [Item.closes]

/-- Only the last item can close it. -/
theorem Transcript.closes_dropLast (h : Transcript connId items sent version goesOn) :
    ∀ item ∈ items.dropLast, item.closes = false := by
  have hopen : ∀ {items sent version}, Transcript connId items sent version true → ∀ item ∈ items,
      item.closes = false := by
    intro items sent version h item hitem
    have hall := List.all_eq_true.mp h.goesOn_eq.symm item hitem
    simpa using hall
  cases h with
  | opened => exact fun item hitem => absurd hitem List.not_mem_nil
  | skipped h => simpa using hopen h
  | answered h => simpa using hopen h
  | refused h => simpa using hopen h

end Transcript

/-- The item an arrival is. -/
def Arrival.item : Arrival → Option Item
  | .request args => some (.ok args)
  | .malformed reason => some (.error reason)
  | .meanwhile _ => none

/-- The loop that has every command run in one go conducts itself so, too. -/
theorem transcript_handleConnection (ft : FloatText) {connId : Int64} (arrivals : List Arrival) {before : List Item}
    {sent : List (Option (List Bytes) × Frame × RespVersion)} {version : RespVersion}
    (h : Transcript connId before sent version true) (w : World) :
    ∃ used rest version' goesOn, arrivals.filterMap Arrival.item = used ++ rest ∧ (goesOn = true → rest = []) ∧
      Transcript connId (before ++ used)
        (sent ++ (handleConnection ft connId arrivals version w).1.map Exchange.seen) version' goesOn := by
  induction arrivals generalizing before sent version w with
  | nil =>
    refine ⟨[], [], version, true, rfl, fun _ => rfl, ?_⟩
    rw [List.append_nil]
    exact (List.append_nil sent).symm ▸ h
  | cons arrival arrivals ih =>
    cases arrival with
    | meanwhile others => exact ih h (others w)
    | malformed reason =>
      exact ⟨[.error reason], arrivals.filterMap Arrival.item, version, false, rfl,
        fun hgo => absurd hgo Bool.false_ne_true, h.refused reason⟩
    | request args =>
      by_cases hargs : args = []
      · obtain ⟨used, rest, version', goesOn, hitems, hrest, htrans⟩ := ih h.skipped w
        refine ⟨.ok args :: used, rest, version', goesOn, congrArg (Except.ok args :: ·) hitems, hrest, ?_⟩
        rw [handleConnection]
        dsimp only
        rw [if_pos hargs, hargs]
        simpa using htrans
      · have hnext := h.answered hargs (dispatch ft args version connId w).1.reply
        rw [← dispatch_actionOf ft args version connId w] at hnext
        rw [handleConnection]
        dsimp only
        rw [if_neg hargs]
        cases hclose : (dispatch ft args version connId w).1.close with
        | true =>
          rw [hclose] at hnext
          exact ⟨[.ok args], arrivals.filterMap Arrival.item, _, false, rfl,
            fun hgo => absurd hgo Bool.false_ne_true, hnext⟩
        | false =>
          rw [hclose] at hnext
          obtain ⟨used, rest, version', goesOn, hitems, hrest, htrans⟩ := ih hnext (dispatch ft args version connId w).2
          refine ⟨.ok args :: used, rest, version', goesOn, congrArg (Except.ok args :: ·) hitems, hrest, ?_⟩
          simpa [Exchange.seen] using htrans

/-- One item at most is unanswered, and none before it closed the connection. -/
theorem Doing.Owes.pending {doing : Doing} {connId : Int64} {version now : RespVersion} {goesOn : Bool}
    {rest : List Item} (h : doing.Owes connId version now goesOn rest) :
    rest = [] ∨ rest.length = 1 ∧ goesOn = true := by
  cases doing with
  | selecting => exact .inl h.1
  | polling => exact .inl h.1
  | dispatching args => exact .inr ⟨h.1 ▸ rfl, h.2.2.1⟩
  | replying args action => exact .inr ⟨h.1 ▸ rfl, h.2.2.1⟩
  | refusing reason => exact .inr ⟨h.1 ▸ rfl, h.2.1⟩
  | ended clean => exact h.imp_right fun h => ⟨h.2.2, h.2.1⟩

/-- In every run of the server, whatever the order in which the tasks take their steps and
whatever the store replies: the connections have different ids, and each one conducts
itself like a loop that runs alone. Its requests get one reply each, in their order; one of
them at most is still open, and none once the loop is back at its head or has ended
without an error; nothing is read after a `QUIT` or a malformed request. -/
theorem connections_served {first : Int64} {es : List Occurrence} {s : Server}
    (h : Happens Server.step (.start first) es s) :
    (s.tasks.length ≤ 2 ^ 64 → (s.tasks.filterMap Task.connId).Nodup) ∧
      ∀ task ∈ s.tasks, ∀ c, task.conn = some c → ∃ before rest version goesOn,
        c.items = before ++ rest ∧ Transcript c.connId before c.sent version goesOn ∧
          c.sent.map Prod.fst = before.filterMap Item.asked ∧ rest.length ≤ 1 ∧
          (c.doing = .selecting ∨ c.doing = .polling ∨ c.doing = .ended true → rest = []) ∧
          ∀ item ∈ c.items.dropLast, item.closes = false := by
  have hs := consistent_happens h
  refine ⟨fun hlen => ?_, fun task htask c hc => ?_⟩
  · obtain ⟨k, -, hperm⟩ := hs.ids
    refine hperm.nodup_iff.mpr (issued_nodup first ?_)
    have hk : k = (s.tasks.filterMap Task.connId).length := by
      rw [hperm.length_eq, issued, List.length_map, List.length_range]
    have hle := List.length_filterMap_le Task.connId s.tasks
    omega
  · obtain ⟨before, rest, version, goesOn, hitems, htrans, howes⟩ := hs.conducted task htask c hc
    refine ⟨before, rest, version, goesOn, hitems, htrans, htrans.requests, ?_, ?_, ?_⟩
    · obtain hrest | ⟨hlen, -⟩ := howes.pending
      · simp [hrest]
      · omega
    · intro hdoing
      obtain hdoing | hdoing | hdoing := hdoing
      · rw [hdoing] at howes
        exact howes.1
      · rw [hdoing] at howes
        exact howes.1
      · rw [hdoing] at howes
        exact howes.resolve_right fun hfail => by cases hfail.1
    · rw [hitems]
      obtain rfl | ⟨hlen, rfl⟩ := howes.pending
      · rw [List.append_nil]
        exact htrans.closes_dropLast
      · obtain ⟨x, rfl⟩ := List.length_eq_one_iff.mp hlen
        rw [List.dropLast_concat]
        intro item hitem
        simpa using List.all_eq_true.mp htrans.goesOn_eq.symm item hitem

/-- What the server comes to when a client sends `HELLO 3`, `QUIT` and another request at once. -/
def oneClient : Server :=
  ⟨.accepting, 8, 0, [⟨some ⟨7, .v3, .ended true, [.ok [utf8 "HELLO", utf8 "3"], .ok [utf8 "QUIT"]],
    [(some [utf8 "HELLO", utf8 "3"], helloReply .v3 7, .v3), (some [utf8 "QUIT"], .OK, .v3)]⟩, false⟩]⟩

def quitRun : List Occurrence :=
  [.accepted, .started 0, .progress 0 .looked,
    .progress 0 (.yielded (some (.ok [utf8 "HELLO", utf8 "3"]))), .progress 0 (.dispatched .null),
    .progress 0 (.sent true), .progress 0 .looked, .acceptFailed, .progress 0 (.yielded (some (.ok [utf8 "QUIT"]))),
    .progress 0 (.dispatched .null), .progress 0 (.sent true)]

theorem connections_served_quit :
    ([7] : List Int64).Nodup ∧ ∃ before rest version goesOn,
      [Except.ok [utf8 "HELLO", utf8 "3"], Except.ok [utf8 "QUIT"]] = before ++ rest ∧
        Transcript 7 before [(some [utf8 "HELLO", utf8 "3"], helloReply .v3 7, .v3), (some [utf8 "QUIT"], .OK, .v3)]
          version goesOn ∧ rest.length ≤ 1 := by
  have hrun : Happens Server.step (.start 7) quitRun oneClient := rfl
  obtain ⟨hids, hserved⟩ := connections_served hrun
  refine ⟨hids (by decide), ?_⟩
  obtain ⟨before, rest, version, goesOn, hitems, htrans, -, hlen, -⟩ := hserved _ (List.mem_singleton.mpr rfl) _ rfl
  exact ⟨before, rest, version, goesOn, hitems, htrans, hlen⟩

/-! ## Shutdown -/

/-- How many steps a connection can take once the shutdown is signalled, with the one of
joining its task. -/
def Doing.left : Doing → ℕ
  | .selecting => 2
  | .polling => 5
  | .dispatching _ => 4
  | .replying _ _ => 3
  | .refusing _ => 2
  | .ended _ => 1

def Task.left (task : Task) : ℕ := if task.joined then 0 else task.conn.elim 3 fun c => c.doing.left

def Server.left (s : Server) : ℕ := (s.tasks.map Task.left).sum + if s.main = .returned then 0 else 1

/-- How many items the connection can have read in the end: after the signal it does not poll the stream again. -/
def Task.mayRead (task : Task) : ℕ :=
  task.conn.elim 0 fun c => c.items.length + if c.doing matches .polling then 1 else 0

theorem Connection.Change.mayRead_le {c c' : Connection} (h : c.Change true c') (joined joined' : Bool) :
    Task.mayRead ⟨some c', joined'⟩ ≤ Task.mayRead ⟨some c, joined⟩ := by
  cases h with
  | read hdoing args =>
    simp only [Task.mayRead, Option.elim_some, List.length_append, List.length_singleton, hdoing]
    by_cases hargs : args = [] <;> simp [hargs]
  | replied hdoing =>
    rename_i args action
    simp only [Task.mayRead, Option.elim_some, hdoing]
    cases action.close <;> simp
  | _ hdoing => simp [Task.mayRead, hdoing]

/-- How many items the connection of a task has read. -/
def Server.read (s : Server) (i : ℕ) : ℕ := s.tasks[i]?.elim 0 fun task => task.conn.elim 0 fun c => c.items.length

def Server.mayRead (s : Server) (i : ℕ) : ℕ := s.tasks[i]?.elim 0 Task.mayRead

/-- What the steps after the signal keep of the server as it was then. -/
structure Server.Draining (s₀ s : Server) : Prop where
  signalled : s.signalled = true
  tasks : s.tasks.length = s₀.tasks.length
  mayRead : ∀ i, s.mayRead i ≤ s₀.mayRead i

section Draining

variable {s₀ s t : Server}

theorem Server.signalled_iff : s.signalled = true ↔ s.main = .draining ∨ s.main = .returned := by
  rw [signalled, decide_eq_true_eq]

/-- One task is replaced by another that may not read more. -/
theorem mayRead_set {i : ℕ} {task task' : Task} (hi : s.tasks[i]? = some task) (h : task'.mayRead ≤ task.mayRead)
    (j : ℕ) : (s.tasks.set i task')[j]?.elim 0 Task.mayRead ≤ s.mayRead j := by
  rw [List.getElem?_set]
  split_ifs with hij hlt
  · subst hij
    rw [Server.mayRead, hi]
    exact h
  · exact Nat.zero_le _
  · exact le_refl _

theorem Server.Draining.step (h : s₀.Draining s) (hstep : s.Change t) : s₀.Draining t := by
  have hsig := h.signalled
  have hnot : s.main ≠ .accepting ∧ s.main ≠ .stopped := by
    obtain hmain | hmain := Server.signalled_iff.mp hsig <;> simp [hmain]
  -- A task is replaced by another.
  have hset : ∀ {i : ℕ} {task task' : Task} {next : Int64} {active : ℤ}, s.tasks[i]? = some task →
      task'.mayRead ≤ task.mayRead → s₀.Draining ⟨s.main, next, active, s.tasks.set i task'⟩ :=
    fun hi hle => ⟨hsig, (List.length_set ..).trans h.tasks, fun j => (mayRead_set hi hle j).trans (h.mayRead j)⟩
  cases hstep with
  | failed hmain => exact absurd hmain hnot.1
  | accepted hmain => exact absurd hmain hnot.1
  | stopped hmain => exact absurd hmain hnot.1
  | draining hmain => exact absurd hmain hnot.2
  | started hi => exact hset hi (Nat.zero_le _)
  | progress hi hc =>
    rw [hsig] at hc
    exact hset hi (hc.mayRead_le false false)
  | joined hi hmain hc => exact hset hi (le_refl _)
  | returned hmain hall => exact ⟨Server.signalled_iff.mpr (.inr rfl), h.tasks, h.mayRead⟩

end Draining

end GameStore
