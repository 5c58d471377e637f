import Mflib.Request.Process

/-! The life of a request.

A request is received, its handler runs or is found missing, it is given back, and
it leaves. `requestLife` reads the history of one block so, and refuses any other: a
second answer, an answer before there is a status, an answer with another status than
the handler's, or a block that leaves without `RESPONSE_BIT` or with another result. -/
namespace Mflib.Request

variable {β : Type}

def RequestEvent.block : RequestEvent β → β
  | .received m _ => m
  | .missing m => m
  | .handled m _ => m
  | .gaveBack m _ => m
  | .left m _ => m

inductive Life where
  /-- With the remote. -/
  | away
  | received (cmd : Word)
  /-- Its answer is known. -/
  | handled (status : Word)
  | gaveBack (status : Word)
deriving DecidableEq

/-- One event in the life of a request. -/
def CmdInfo.live (info : CmdInfo) : Life → RequestEvent β → Option Life
  | .away, .received _ cmd => some (.received cmd)
  | .received cmd, .missing _ =>
    if info.handler cmd = none then some (.handled mreqbRetNohandle) else none
  | .received cmd, .handled _ status =>
    if info.handler cmd = none then none else some (.handled status)
  | .handled status, .gaveBack _ given => if given = status then some (.gaveBack status) else none
  | .gaveBack status, .left _ v =>
    if mreqbIsResponse v ∧ v.result = status then some .away else none
  | _, _ => none

variable [DecidableEq β]

/-- The life of block `m`, to which the events of other blocks are nothing. -/
def requestLife (info : CmdInfo) (m : β) : Lts Life (RequestEvent β) where
  start := .away
  step := fun p e => if e.block = m then info.live p e else some p

def receivedCount (m : β) (log : List (RequestEvent β)) : Nat :=
  log.countP fun e => match e with
    | .received k _ => k = m
    | _ => false

def gaveBackCount (m : β) (log : List (RequestEvent β)) : Nat :=
  log.countP fun e => match e with
    | .gaveBack k _ => k = m
    | _ => false

def leftCount (m : β) (log : List (RequestEvent β)) : Nat :=
  log.countP fun e => match e with
    | .left k _ => k = m
    | _ => false

/-- How many answers are owed. -/
def Life.unanswered : Life → Nat
  | .received _ => 1
  | .handled _ => 1
  | _ => 0

/-- How many requests have yet to leave. -/
def Life.here : Life → Nat
  | .away => 0
  | _ => 1

variable {info : CmdInfo} {m : β} {log : List (RequestEvent β)} {p q : Life}

/-- Events of other blocks are nothing to this one. -/
theorem requestLife_others (h : ∀ e ∈ log, e.block ≠ m) : (requestLife info m).exec p log = some p := by
  induction log with
  | nil => rfl
  | cons e rest ih =>
    have he : (requestLife info m).step p e = some p := if_neg (h e (by simp))
    simp only [Lts.exec, he]
    exact ih fun e' he' => h e' (List.mem_cons_of_mem e he')

theorem requestLife_single {e : RequestEvent β} (he : e.block = m) (hp : info.live p e = some q) :
    (requestLife info m).exec p [e] = some q := by
  have hs : (requestLife info m).step p e = some q := (if_pos he).trans hp
  simp only [Lts.exec, hs]

/-- Answers and departures, against arrivals. -/
theorem requestLife_step {e : RequestEvent β} (h : (requestLife info m).step p e = some q) :
    receivedCount m [e] + p.unanswered = gaveBackCount m [e] + q.unanswered ∧
      receivedCount m [e] + p.here = leftCount m [e] + q.here := by
  by_cases he : e.block = m
  · rw [show (requestLife info m).step p e = info.live p e from if_pos he] at h
    subst he
    unfold CmdInfo.live at h
    split at h
    · cases h
      simp [receivedCount, gaveBackCount, leftCount, Life.unanswered, Life.here,
        RequestEvent.block]
    · rw [Option.ite_none_right_eq_some] at h
      obtain ⟨_, h⟩ := h
      cases h
      simp [receivedCount, gaveBackCount, leftCount, Life.unanswered, Life.here]
    · rw [Option.ite_none_left_eq_some] at h
      obtain ⟨_, h⟩ := h
      cases h
      simp [receivedCount, gaveBackCount, leftCount, Life.unanswered, Life.here]
    · rw [Option.ite_none_right_eq_some] at h
      obtain ⟨_, h⟩ := h
      cases h
      simp [receivedCount, gaveBackCount, leftCount, Life.unanswered, Life.here,
        RequestEvent.block]
    · rw [Option.ite_none_right_eq_some] at h
      obtain ⟨_, h⟩ := h
      cases h
      simp [receivedCount, gaveBackCount, leftCount, Life.unanswered, Life.here,
        RequestEvent.block]
    · cases h
  · rw [show (requestLife info m).step p e = some p from if_neg he] at h
    cases h
    cases e with
    | received | missing | handled | gaveBack | left =>
      have hk : ¬ _ = m := he
      simp only [RequestEvent.block] at hk
      simp [receivedCount, gaveBackCount, leftCount, hk]

/-- Every request received was given back or still owes an answer, and left or has
yet to leave. -/
theorem requestLife_count (h : (requestLife info m).exec p log = some q) :
    receivedCount m log + p.unanswered = gaveBackCount m log + q.unanswered ∧
      receivedCount m log + p.here = leftCount m log + q.here := by
  induction log generalizing p with
  | nil =>
    cases h
    exact ⟨rfl, rfl⟩
  | cons e rest ih =>
    obtain ⟨r, hs, hr⟩ := Lts.exec_cons h
    have hstep := requestLife_step hs
    have hrest := ih hr
    have hcons : ∀ f : RequestEvent β → Bool, (e :: rest).countP f = [e].countP f + rest.countP f := by
      intro f
      rw [← List.countP_append]
      rfl
    simp only [receivedCount, gaveBackCount, leftCount] at hstep hrest ⊢
    rw [hcons, hcons, hcons]
    omega

end Mflib.Request
