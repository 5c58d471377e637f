import Mflib.Lib.Lts
import Mflib.Notifier.Ports
import Mflib.Serial.Port

/-! Requests on virtual serial ports: which ports they touch.

`handle_mbserial_request` and `mf_mbserial_get` compare a line with the number of ports only
from above. A line is a word of the other CPU, or an `int` of the caller; from `2^31` on it
is negative, and indexes `allports` below its start. -/
namespace Mflib.Serial

def mbserialEventStartup : Word := 0
def mbserialEventShutdown : Word := 1
def mbserialEventDatavail : Word := 2

/-- A call into the notifier chain of a port. -/
inductive NotifierUse (β : Type) where
  | register (port : Fin maxMbserialNum) (nb : β)
  | callChain (port : Fin maxMbserialNum) (event : Word) (data : Pointer) (len : Word)
deriving DecidableEq

def NotifierUse.port {β : Type} : NotifierUse β → Fin maxMbserialNum
  | .register port _ => port
  | .callChain port _ _ _ => port

structure SerialState (β : Type) where
  allports : Allports
  /-- The calls into notifier chains, in order. -/
  uses : List (NotifierUse β)
  /-- The requests that were handled and what was returned for each, in order. -/
  served : List (Mreqb × Word)

variable {β : Type}

def SerialState.setStatus (s : SerialState β) (port : Fin maxMbserialNum) (status : Word) :
    SerialState β :=
  {s with allports := Function.update s.allports port (some status)}

def SerialState.use (s : SerialState β) (call : NotifierUse β) : SerialState β :=
  {s with uses := s.uses ++ [call]}

/-- A block, if one is given, is registered on a port. -/
def SerialState.register (s : SerialState β) (port : Fin maxMbserialNum) (nb : Option β) :
    SerialState β :=
  match nb with
  | some nb => s.use (.register port nb)
  | none => s

/-- `allports[index]` with the port's number; there is no result outside of the array. -/
def allportsAt (allports : Allports) (index : Int) : Option (Fin maxMbserialNum × Option Word) :=
  if h : 0 ≤ index ∧ index < maxMbserialNum then
    some (⟨index.toNat, by omega⟩, allports ⟨index.toNat, by omega⟩)
  else none

/-- `handle_mbserial_request` with the chain it runs. There is no result when it accesses
`allports` outside of it. -/
def serveMbserialRequest (s : SerialState β) (reqb : Mreqb) : Option (SerialState β × Word) :=
  let cmd := reqb.subcmd
  let line := (mreqbGetArg reqb 0).toInt
  if (maxMbserialNum : Int) ≤ line then some (s, -1)
  else match allportsAt s.allports line with
    | none => none
    | some (_, none) => some (s, -1)
    | some (port, some status) =>
      if cmd = mbserialCmdStartup then
        some ((s.setStatus port (status ||| portStatusUp)).use
          (.callChain port mbserialEventStartup none 0), 0)
      else if cmd = mbserialCmdShutdown then
        some ((s.setStatus port (status &&& ~~~portStatusUp)).use
          (.callChain port mbserialEventShutdown none 0), 0)
      else if cmd = mbserialCmdDataTransfer then
        some (s.use (.callChain port mbserialEventDatavail reqb.extraData (mreqbGetArg reqb 1)), 0)
      else some (s, -1)

/-- `mf_mbserial_get` on any `int`: the port, or `none` for `MBSERIAL_INVALID`. -/
def mfMbserialGet (s : SerialState β) (line : Word) (malloc : Bool) (nb : Option β) :
    Option (SerialState β × Option (Fin maxMbserialNum)) :=
  if (maxMbserialNum : Int) ≤ line.toInt then some (s, none)
  else match allportsAt s.allports line.toInt with
    | none => none
    | some (port, some _) => some (s.register port nb, some port)
    | some (port, none) =>
      if malloc then some ((s.setStatus port 0).register port nb, some port)
      else some (s, none)

/-- Whether `mf_mbserial_send` goes on to take the lock of the port. -/
def mfMbserialSendAccepts (s : SerialState β) (ser : Fin maxMbserialNum) (data : Pointer)
    (len : Word) : Bool :=
  if len.toInt ≤ 0 ∨ data = none then false
  else match s.allports ser with
    | some status => decide (status &&& portStatusUp ≠ 0)
    | none => false

/-! ### Sequences of calls -/

inductive SerialCall (β : Type) where
  | request (reqb : Mreqb)
  | get (line : Word) (malloc : Bool) (nb : Option β)

def serialStep (s : SerialState β) : SerialCall β → Option (SerialState β)
  | .request reqb => (serveMbserialRequest s reqb).map fun r =>
      {r.1 with served := s.served ++ [(reqb, r.2)]}
  | .get line malloc nb => (mfMbserialGet s line malloc nb).map Prod.fst

/-- Some ports are there, and nothing was asked of any. -/
def serialStart (opened : Fin maxMbserialNum → Bool) : SerialState β where
  allports := fun p => if opened p then some 0 else none
  uses := []
  served := []

def serialRequests (opened : Fin maxMbserialNum → Bool) : Lts (SerialState β) (SerialCall β) where
  start := serialStart opened
  step := serialStep

/-- The line of a call is not negative. -/
def LineNonneg (_ : SerialState β) : SerialCall β → Prop
  | .request reqb => 0 ≤ (mreqbGetArg reqb 0).toInt
  | .get line _ _ => 0 ≤ line.toInt

instance (s : SerialState β) : (a : SerialCall β) → Decidable (LineNonneg s a)
  | .request _ => inferInstanceAs (Decidable (_ ≤ _))
  | .get _ _ _ => inferInstanceAs (Decidable (_ ≤ _))

/-! ### What a call owes -/

def Names (reqb : Mreqb) (p : Fin maxMbserialNum) : Prop := (mreqbGetArg reqb 0).toInt = p.val

instance (reqb : Mreqb) (p : Fin maxMbserialNum) : Decidable (Names reqb p) :=
  inferInstanceAs (Decidable (_ = _))

def KnownSubcmd (reqb : Mreqb) : Prop :=
  reqb.subcmd = mbserialCmdStartup ∨ reqb.subcmd = mbserialCmdShutdown ∨
    reqb.subcmd = mbserialCmdDataTransfer

/-- The request names an open port and a command there is. -/
def ValidRequest (s : SerialState β) (reqb : Mreqb) : Prop :=
  KnownSubcmd reqb ∧ ∃ p, Names reqb p ∧ s.allports p ≠ none

/-- The request is handled inside of `allports`; it is refused without any effect if it is
not valid, and touches the port it names alone. -/
def RequestKeeps (s : SerialState β) (reqb : Mreqb) : Prop :=
  ∃ t ret, serveMbserialRequest s reqb = some (t, ret) ∧
    (¬ ValidRequest s reqb → t = s ∧ ret = -1) ∧
    (ValidRequest s reqb → ret = 0) ∧
    (∀ p, ¬ Names reqb p → t.allports p = s.allports p) ∧
    (∀ use ∈ t.uses, use ∈ s.uses ∨ Names reqb use.port) ∧
    ∀ p status, Names reqb p → s.allports p = some status →
      t.allports p = some
        (if reqb.subcmd = mbserialCmdStartup then status ||| portStatusUp
        else if reqb.subcmd = mbserialCmdShutdown then status &&& ~~~portStatusUp
        else status)

/-- The call stays inside of `allports`, and there is no port on a line out of range. -/
def GetKeeps (s : SerialState β) (line : Word) (malloc : Bool) (nb : Option β) : Prop :=
  ∃ t ser, mfMbserialGet s line malloc nb = some (t, ser) ∧
    ((∀ p : Fin maxMbserialNum, line.toInt ≠ p.val) → t = s ∧ ser = none) ∧
    ∀ p : Fin maxMbserialNum, line.toInt ≠ p.val → t.allports p = s.allports p

/-- The command of the last request that started a port up or shut it down. -/
def lastSwitch (p : Fin maxMbserialNum) (served : List (Mreqb × Word)) : Option Word :=
  ((served.filter fun r => r.2 = 0 ∧ Names r.1 p ∧
    (r.1.subcmd = mbserialCmdStartup ∨ r.1.subcmd = mbserialCmdShutdown)).getLast?).map
      fun r => r.1.subcmd

/-! ### One call -/

variable {s t : SerialState β} {reqb : Mreqb} {p : Fin maxMbserialNum}

theorem allportsAt_of_eq (allports : Allports) {index : Int} (h : index = p.val) :
    allportsAt allports index = some (p, allports p) := by
  subst h
  have hp := p.isLt
  rw [allportsAt, dif_pos (by omega)]
  rfl

theorem allportsAt_neg (allports : Allports) {index : Int} (h : index < 0) :
    allportsAt allports index = none := by
  rw [allportsAt, dif_neg]
  omega

/-- A line that is not negative is out of range, or names a port. -/
theorem line_cases {line : Int} (h : 0 ≤ line) :
    (maxMbserialNum : Int) ≤ line ∨ ∃ p : Fin maxMbserialNum, line = p.val := by
  by_cases hle : (maxMbserialNum : Int) ≤ line
  · exact .inl hle
  · exact .inr ⟨⟨line.toNat, by omega⟩, by simp only; omega⟩

theorem line_inside (p : Fin maxMbserialNum) : ¬ (maxMbserialNum : Int) ≤ (p.val : Int) := by
  have hp := p.isLt
  omega

theorem Names.unique {q : Fin maxMbserialNum} (h : Names reqb p) (h' : Names reqb q) : p = q := by
  apply Fin.ext
  unfold Names at h h'
  omega

/-- A request on an open port, by its command. -/
theorem serve_open {status : Word} (h : Names reqb p) (hopen : s.allports p = some status) :
    serveMbserialRequest s reqb =
      if reqb.subcmd = mbserialCmdStartup then
        some ((s.setStatus p (status ||| portStatusUp)).use
          (.callChain p mbserialEventStartup none 0), 0)
      else if reqb.subcmd = mbserialCmdShutdown then
        some ((s.setStatus p (status &&& ~~~portStatusUp)).use
          (.callChain p mbserialEventShutdown none 0), 0)
      else if reqb.subcmd = mbserialCmdDataTransfer then
        some (s.use (.callChain p mbserialEventDatavail reqb.extraData (mreqbGetArg reqb 1)), 0)
      else some (s, -1) := by
  have hinside := line_inside p
  unfold Names at h
  simp only [serveMbserialRequest, h, hinside, if_false, allportsAt_of_eq s.allports rfl, hopen]

/-- A request that is not valid has no effect. -/
theorem serve_refused (hline : 0 ≤ (mreqbGetArg reqb 0).toInt) (h : ¬ ValidRequest s reqb) :
    serveMbserialRequest s reqb = some (s, -1) := by
  rcases line_cases hline with hle | ⟨p, hp⟩
  · simp only [serveMbserialRequest, hle, if_true]
  · cases hopen : s.allports p with
    | none =>
      have hinside := line_inside p
      simp only [serveMbserialRequest, hp, hinside, if_false, allportsAt_of_eq s.allports rfl,
        hopen]
    | some status =>
      have hsub : ¬ KnownSubcmd reqb := fun hk => h ⟨hk, p, hp, by simp [hopen]⟩
      simp only [KnownSubcmd, not_or] at hsub
      rw [serve_open hp hopen, if_neg hsub.1, if_neg hsub.2.1, if_neg hsub.2.2]

/-- What a valid request does: the port it names, its new status, and the run of its chain. -/
theorem serve_valid (h : ValidRequest s reqb) :
    ∃ p status event data len, Names reqb p ∧ s.allports p = some status ∧
      serveMbserialRequest s reqb = some ((s.setStatus p
        (if reqb.subcmd = mbserialCmdStartup then status ||| portStatusUp
        else if reqb.subcmd = mbserialCmdShutdown then status &&& ~~~portStatusUp
        else status)).use (.callChain p event data len), 0) := by
  obtain ⟨hknown, p, hp, hopen⟩ := h
  obtain ⟨status, hstatus⟩ := Option.ne_none_iff_exists'.mp hopen
  have hserve := serve_open hp hstatus
  have hkeep : s.setStatus p status = s := by
    simp [SerialState.setStatus, ← hstatus]
  by_cases hup : reqb.subcmd = mbserialCmdStartup
  · rw [if_pos hup] at hserve
    exact ⟨p, status, _, _, _, hp, hstatus, by rw [hserve, if_pos hup]⟩
  · by_cases hdown : reqb.subcmd = mbserialCmdShutdown
    · rw [if_neg hup, if_pos hdown] at hserve
      exact ⟨p, status, _, _, _, hp, hstatus, by rw [hserve, if_neg hup, if_pos hdown]⟩
    · have hdata : reqb.subcmd = mbserialCmdDataTransfer := by
        rcases hknown with hk | hk | hk
        · exact absurd hk hup
        · exact absurd hk hdown
        · exact hk
      rw [if_neg hup, if_neg hdown, if_pos hdata] at hserve
      exact ⟨p, status, _, _, _, hp, hstatus,
        by rw [hserve, if_neg hup, if_neg hdown, hkeep]⟩

/-- A request is kept to its port exactly when its line is not negative. -/
theorem requestKeeps_iff (s : SerialState β) (reqb : Mreqb) :
    RequestKeeps s reqb ↔ 0 ≤ (mreqbGetArg reqb 0).toInt := by
  constructor
  · rintro ⟨t, ret, hserve, -⟩
    by_contra hneg
    have hlt : (mreqbGetArg reqb 0).toInt < 0 := by omega
    have hinside : ¬ (maxMbserialNum : Int) ≤ (mreqbGetArg reqb 0).toInt := by omega
    simp only [serveMbserialRequest, hinside, if_false, allportsAt_neg s.allports hlt] at hserve
    cases hserve
  · intro hline
    by_cases hvalid : ValidRequest s reqb
    · obtain ⟨p, status, event, data, len, hp, hopen, hserve⟩ := serve_valid hvalid
      refine ⟨_, 0, hserve, fun hno => absurd hvalid hno, fun _ => rfl, fun q hq => ?_,
        fun use huse => ?_, fun q status' hq hopen' => ?_⟩
      · have hne : q ≠ p := fun he => hq (he ▸ hp)
        exact Function.update_of_ne hne _ _
      · rcases List.mem_append.mp huse with hm | hm
        · exact .inl hm
        · obtain rfl := List.mem_singleton.mp hm
          exact .inr hp
      · obtain rfl := hq.unique hp
        obtain rfl : status = status' := by simpa [hopen] using hopen'
        exact Function.update_self ..
    · refine ⟨s, -1, serve_refused hline hvalid, fun _ => ⟨rfl, rfl⟩,
        fun h => absurd h hvalid, fun _ _ => rfl, fun use huse => .inl huse,
        fun p status hp hopen => ?_⟩
      have hsub : ¬ KnownSubcmd reqb := fun hk => hvalid ⟨hk, p, hp, by simp [hopen]⟩
      simp only [KnownSubcmd, not_or] at hsub
      rw [if_neg hsub.1, if_neg hsub.2.1, hopen]

@[simp] theorem register_allports (s : SerialState β) (p : Fin maxMbserialNum) (nb : Option β) :
    (s.register p nb).allports = s.allports := by
  cases nb <;> rfl

@[simp] theorem register_served (s : SerialState β) (p : Fin maxMbserialNum) (nb : Option β) :
    (s.register p nb).served = s.served := by
  cases nb <;> rfl

/-- What `mf_mbserial_get` does on a line that is not negative. -/
theorem get_cases (s : SerialState β) {line : Word} (hline : 0 ≤ line.toInt) (malloc : Bool)
    (nb : Option β) :
    (mfMbserialGet s line malloc nb = some (s, none) ∧
      (malloc = true → (maxMbserialNum : Int) ≤ line.toInt)) ∨
    ∃ p : Fin maxMbserialNum, line.toInt = p.val ∧
      ((s.allports p ≠ none ∧ mfMbserialGet s line malloc nb = some (s.register p nb, some p)) ∨
      (s.allports p = none ∧
        mfMbserialGet s line malloc nb = some ((s.setStatus p 0).register p nb, some p))) := by
  rcases line_cases hline with hle | ⟨p, hp⟩
  · exact .inl ⟨by simp only [mfMbserialGet, hle, if_true], fun _ => hle⟩
  · have hinside := line_inside p
    have hat := allportsAt_of_eq s.allports hp
    rw [← hp] at hinside
    cases hopen : s.allports p with
    | some status =>
      refine .inr ⟨p, hp, .inl ⟨by simp [hopen], ?_⟩⟩
      simp only [mfMbserialGet, hinside, if_false, hat, hopen]
    | none =>
      cases malloc with
      | false =>
        refine .inl ⟨?_, nofun⟩
        simp only [mfMbserialGet, hinside, if_false, hat, hopen, Bool.false_eq_true]
      | true =>
        refine .inr ⟨p, hp, .inr ⟨hopen, ?_⟩⟩
        simp only [mfMbserialGet, hinside, if_false, hat, hopen, if_true]

/-- `mf_mbserial_get` stays inside of `allports` exactly when the line is not negative. -/
theorem getKeeps_iff (s : SerialState β) (line : Word) (malloc : Bool) (nb : Option β) :
    GetKeeps s line malloc nb ↔ 0 ≤ line.toInt := by
  constructor
  · rintro ⟨t, ser, hget, -⟩
    by_contra hneg
    have hlt : line.toInt < 0 := by omega
    have hinside : ¬ (maxMbserialNum : Int) ≤ line.toInt := by omega
    simp only [mfMbserialGet, hinside, if_false, allportsAt_neg s.allports hlt] at hget
    cases hget
  · intro hline
    rcases get_cases s hline malloc nb with ⟨hget, -⟩ | ⟨p, hp, ⟨-, hget⟩ | ⟨-, hget⟩⟩
    · exact ⟨s, none, hget, fun _ => ⟨rfl, rfl⟩, fun _ _ => rfl⟩
    · exact ⟨_, some p, hget, fun hno => absurd hp (hno p), fun q _ => by rw [register_allports]⟩
    · refine ⟨_, some p, hget, fun hno => absurd hp (hno p), fun q hq => ?_⟩
      have hne : q ≠ p := fun he => hq (he ▸ hp)
      rw [register_allports]
      exact Function.update_of_ne hne _ _

/-! ### The other models of the two functions -/

/-- With its notifier chain run, a request does to the ports what it does without. -/
theorem serve_handle (s : SerialState β) (reqb : Mreqb) :
    (serveMbserialRequest s reqb).map (fun r => (r.1.allports, r.2)) =
      handleMbserialRequest s.allports reqb := by
  have hnat := BitVec.toInt_eq_toNat_cond (mreqbGetArg reqb 0)
  have hbound := (mreqbGetArg reqb 0).isLt
  rcases lt_or_ge (mreqbGetArg reqb 0).toInt 0 with hneg | hline
  · have hinside : ¬ (maxMbserialNum : Int) ≤ (mreqbGetArg reqb 0).toInt := by omega
    have houtside : ¬ (mreqbGetArg reqb 0).toNat < maxMbserialNum := by
      have hmax : maxMbserialNum = 8 := rfl
      split at hnat <;> omega
    simp only [serveMbserialRequest, handleMbserialRequest, hinside, if_false, houtside, dif_neg,
      not_false_eq_true, allportsAt_neg s.allports hneg, Option.map_none]
  · rcases line_cases hline with hle | ⟨p, hp⟩
    · simp only [serveMbserialRequest, handleMbserialRequest, hle, if_true, Option.map_some]
    · have hinside := line_inside p
      have hindex : (mreqbGetArg reqb 0).toNat = p.val := by
        split at hnat <;> omega
      simp only [serveMbserialRequest, handleMbserialRequest, hp, hinside, if_false,
        allportsAt_of_eq s.allports rfl, hindex, p.isLt, dif_pos]
      cases s.allports p with
      | none => rfl
      | some status => split_ifs <;> rfl

/-- A call on the notifier of a port makes no port. -/
theorem onNotifier_made {n n' : Notifier.Ports β} {ret : Int}
    {call : Notifier.NotifierHead β → Option (Notifier.NotifierHead β × Int)}
    (h : n.onNotifier p call = some (n', ret)) (q : Fin maxMbserialNum) :
    n'.head q = none ↔ n.head q = none := by
  obtain ⟨nh, hnh, hmap⟩ := Option.bind_eq_some_iff.mp h
  obtain ⟨after, -, hset⟩ := Option.map_eq_some_iff.mp hmap
  obtain ⟨rfl, -⟩ := Prod.mk.inj hset
  by_cases hq : q = p
  · subst hq
    have hthere : n.head q ≠ none := by
      intro hnone
      simp [Notifier.Ports.notifier, hnone] at hnh
    simp [Notifier.Ports.setNotifier, hthere]
  · simp [Notifier.Ports.setNotifier, Function.update_of_ne hq]

/-- Once the port is there, the block is registered. -/
theorem register_made [DecidableEq β] {priority : β → Int} {fuel : Nat}
    {n n' : Notifier.Ports β} {nb : Option β} {ser : Option (Fin maxMbserialNum)}
    (hmade : ∀ p, n.head p = none ↔ s.allports p = none)
    (hreg : (match nb with
      | none => some (n, some p)
      | some nb => (Notifier.mfMbserialRegisterNotifier priority fuel n p nb).map fun after =>
        (after.1, some p)) = some (n', ser)) :
    ser = some p ∧ ∀ q, n'.head q = none ↔ (s.register p nb).allports q = none := by
  rw [register_allports]
  cases nb with
  | none =>
    obtain ⟨rfl, rfl⟩ := Prod.mk.inj (Option.some.inj hreg)
    exact ⟨rfl, hmade⟩
  | some nb =>
    obtain ⟨⟨after, ret⟩, hafter, hpair⟩ := Option.map_eq_some_iff.mp hreg
    obtain ⟨rfl, rfl⟩ := Prod.mk.inj hpair
    exact ⟨rfl, fun q => (onNotifier_made hafter q).trans (hmade q)⟩

/-- On a line that is not negative, `mf_mbserial_get` over the blocks of the chains gives the
same port, and leaves the same ports made. -/
theorem get_notifier [DecidableEq β] {priority : β → Int} {fuel : Nat} {n n' : Notifier.Ports β}
    {line : Word} {malloc : Bool} {nb : Option β} {ser : Option (Fin maxMbserialNum)}
    (hmade : ∀ p, n.head p = none ↔ s.allports p = none) (hline : 0 ≤ line.toInt)
    (hget : Notifier.mfMbserialGet priority fuel n line.toInt.toNat malloc nb = some (n', ser)) :
    ∃ t, mfMbserialGet s line malloc nb = some (t, ser) ∧
      ∀ p, n'.head p = none ↔ t.allports p = none := by
  rcases line_cases hline with hle | ⟨p, hp⟩
  · have houtside : ¬ line.toInt.toNat < maxMbserialNum := by omega
    rw [Notifier.mfMbserialGet, dif_neg houtside] at hget
    obtain ⟨rfl, rfl⟩ := Prod.mk.inj (Option.some.inj hget)
    exact ⟨s, by simp only [mfMbserialGet, hle, if_true], hmade⟩
  · have hinside := line_inside p
    have hat := allportsAt_of_eq s.allports hp
    have hindex : line.toInt.toNat = p.val := by omega
    rw [← hp] at hinside
    simp only [Notifier.mfMbserialGet, hindex, p.isLt, dif_pos] at hget
    simp only [mfMbserialGet, hinside, if_false, hat]
    cases hopen : s.allports p with
    | some status =>
      have hthere : n.head p ≠ none := fun hnone => by simp [(hmade p).mp hnone] at hopen
      rw [if_neg fun hc => hthere hc.1, if_neg hthere] at hget
      obtain ⟨rfl, hafter⟩ := register_made hmade hget
      exact ⟨_, rfl, hafter⟩
    | none =>
      have hnone := (hmade p).mpr hopen
      cases malloc with
      | false =>
        rw [if_pos ⟨hnone, rfl⟩] at hget
        obtain ⟨rfl, rfl⟩ := Prod.mk.inj (Option.some.inj hget)
        exact ⟨s, rfl, hmade⟩
      | true =>
        rw [if_neg fun hc => Bool.noConfusion hc.2, if_pos hnone] at hget
        have hset : ∀ q, (n.setNotifier p (Notifier.initNotifierHead n.next)).head q = none ↔
            (s.setStatus p 0).allports q = none := by
          intro q
          by_cases hq : q = p
          · subst hq
            simp [Notifier.Ports.setNotifier, SerialState.setStatus]
          · simpa [Notifier.Ports.setNotifier, SerialState.setStatus, Function.update_of_ne hq]
              using hmade q
        obtain ⟨rfl, hafter⟩ := register_made hset hget
        exact ⟨_, rfl, hafter⟩

/-! ### The status of a port -/

/-- The remote is there to take data of the port. -/
def Up (s : SerialState β) (p : Fin maxMbserialNum) : Prop :=
  ∃ status, s.allports p = some status ∧ status &&& portStatusUp ≠ 0

theorem up_iff {status : Word} (h : s.allports p = some status) :
    Up s p ↔ status &&& portStatusUp ≠ 0 := by
  simp only [Up, h, Option.some.injEq, exists_eq_left']

theorem up_congr (h : t.allports p = s.allports p) : Up t p ↔ Up s p := by
  rw [Up, h, Up]

theorem accepts_iff {data : Pointer} {len : Word} (hdata : data ≠ none) (hlen : 0 < len.toInt) :
    mfMbserialSendAccepts s p data len = true ↔ Up s p := by
  have hcond : ¬ (len.toInt ≤ 0 ∨ data = none) := by
    rw [not_or]
    exact ⟨by omega, hdata⟩
  simp only [mfMbserialSendAccepts, hcond, if_false, Up]
  cases s.allports p <;> simp

theorem lastSwitch_append (p : Fin maxMbserialNum) (served : List (Mreqb × Word)) (reqb : Mreqb)
    (ret : Word) :
    lastSwitch p (served ++ [(reqb, ret)]) =
      if ret = 0 ∧ Names reqb p ∧
        (reqb.subcmd = mbserialCmdStartup ∨ reqb.subcmd = mbserialCmdShutdown)
      then some reqb.subcmd else lastSwitch p served := by
  unfold lastSwitch
  rw [List.filter_append]
  split
  · simp_all
  · simp_all

theorem or_up (status : Word) : (status ||| portStatusUp) &&& portStatusUp ≠ 0 := by
  have habsorb : (status ||| portStatusUp) &&& portStatusUp = portStatusUp := by
    apply BitVec.eq_of_getLsbD_eq
    intro i hi
    simp only [BitVec.getLsbD_and, BitVec.getLsbD_or]
    cases status.getLsbD i <;> cases portStatusUp.getLsbD i <;> rfl
  rw [habsorb]
  decide

theorem and_not_up (status : Word) : (status &&& ~~~portStatusUp) &&& portStatusUp = 0 := by
  rw [BitVec.and_assoc]
  have hnone : ~~~portStatusUp &&& portStatusUp = 0 := by decide
  rw [hnone]
  exact BitVec.and_zero

/-- A port is up exactly when it was last started up. -/
def StatusLatest (s : SerialState β) : Prop :=
  ∀ p, Up s p ↔ lastSwitch p s.served = some mbserialCmdStartup

theorem StatusLatest.request {ret : Word} (h : StatusLatest s)
    (hline : 0 ≤ (mreqbGetArg reqb 0).toInt)
    (hserve : serveMbserialRequest s reqb = some (t, ret)) :
    StatusLatest {t with served := s.served ++ [(reqb, ret)]} := by
  intro q
  rw [lastSwitch_append]
  by_cases hvalid : ValidRequest s reqb
  · obtain ⟨p, status, event, data, len, hp, hopen, hvalue⟩ := serve_valid hvalid
    obtain ⟨rfl, rfl⟩ := Prod.mk.inj (Option.some.inj (hserve.symm.trans hvalue))
    by_cases hq : q = p
    · subst hq
      refine (up_iff (Function.update_self ..)).trans ?_
      have hkeep := h q
      rw [up_iff hopen] at hkeep
      by_cases hup : reqb.subcmd = mbserialCmdStartup
      · rw [if_pos hup, if_pos ⟨rfl, hp, .inl hup⟩, hup]
        exact iff_of_true (or_up status) rfl
      · rw [if_neg hup]
        by_cases hdown : reqb.subcmd = mbserialCmdShutdown
        · rw [if_pos hdown, if_pos ⟨rfl, hp, .inr hdown⟩]
          exact iff_of_false (not_not.mpr (and_not_up status)) fun he => hup (Option.some.inj he)
        · rw [if_neg hdown, if_neg fun hc => hc.2.2.elim hup hdown]
          exact hkeep
    · refine (up_congr (Function.update_of_ne hq _ _)).trans ?_
      rw [if_neg fun hc => hq (hc.2.1.unique hp)]
      exact h q
  · obtain ⟨rfl, rfl⟩ := Prod.mk.inj
      (Option.some.inj (hserve.symm.trans (serve_refused hline hvalid)))
    rw [if_neg fun hc => absurd hc.1 (by decide)]
    exact h q

theorem StatusLatest.get {line : Word} {malloc : Bool} {nb : Option β}
    {ser : Option (Fin maxMbserialNum)} (h : StatusLatest s) (hline : 0 ≤ line.toInt)
    (hget : mfMbserialGet s line malloc nb = some (t, ser)) : StatusLatest t := by
  rcases get_cases s hline malloc nb with ⟨hget', -⟩ | ⟨p, -, ⟨-, hget'⟩ | ⟨hnone, hget'⟩⟩
  · obtain ⟨rfl, rfl⟩ := Prod.mk.inj (Option.some.inj (hget.symm.trans hget'))
    exact h
  · obtain ⟨rfl, rfl⟩ := Prod.mk.inj (Option.some.inj (hget.symm.trans hget'))
    simpa [StatusLatest, Up] using h
  · obtain ⟨rfl, rfl⟩ := Prod.mk.inj (Option.some.inj (hget.symm.trans hget'))
    intro q
    have hkeep := h q
    by_cases hq : q = p
    · -- a port that is made now was never started up
      subst hq
      simpa [Up, SerialState.setStatus, hnone] using hkeep
    · simpa [Up, SerialState.setStatus, Function.update_of_ne hq] using hkeep

theorem serialStep_status {a : SerialCall β} (h : StatusLatest s) (ha : LineNonneg s a)
    (hs : serialStep s a = some t) : StatusLatest t := by
  cases a with
  | request reqb =>
    obtain ⟨⟨u, ret⟩, hserve, rfl⟩ := Option.map_eq_some_iff.mp hs
    exact h.request ha hserve
  | get line malloc nb =>
    obtain ⟨⟨u, ser⟩, hget, rfl⟩ := Option.map_eq_some_iff.mp hs
    exact h.get ha hget

theorem serialStart_status (opened : Fin maxMbserialNum → Bool) :
    StatusLatest (serialStart opened : SerialState β) := by
  intro p
  simp only [Up, serialStart, lastSwitch, List.filter_nil, List.getLast?_nil, Option.map_none]
  constructor
  · rintro ⟨status, hopen, hup⟩
    split at hopen
    · cases hopen
      exact absurd (BitVec.zero_and) hup
    · cases hopen
  · exact nofun

/-- **Calls touch only the port they name**: in every run of requests and calls of
`mf_mbserial_get` with lines that are not negative, whatever ports were there. A further call
keeps to that exactly when its line is not negative either, and a port takes data exactly when
it was last started up. -/
theorem serial_calls_keep_to_port (opened : Fin maxMbserialNum → Bool) {s : SerialState β}
    (hreach : (serialRequests opened).ReachableUnder LineNonneg s) :
    (∀ reqb, RequestKeeps s reqb ↔ 0 ≤ (mreqbGetArg reqb 0).toInt) ∧
    (∀ line malloc nb, GetKeeps s line malloc nb ↔ 0 ≤ line.toInt) ∧
    ∀ p data len, data ≠ none → 0 < len.toInt →
      (mfMbserialSendAccepts s p data len = true ↔
        lastSwitch p s.served = some mbserialCmdStartup) := by
  refine ⟨requestKeeps_iff s, getKeeps_iff s, fun p data len hdata hlen => ?_⟩
  have hstatus := hreach.invariant (serialStart_status opened) serialStep_status
  exact (accepts_iff hdata hlen).trans (hstatus p)

def lineRequest (subcmd line : Word) : Mreqb :=
  {Mreqb.zero with subcmd := subcmd, argv := Mreqb.zero.argv.set 0 line}

/-- Port 3 is started up, and takes data. -/
theorem serial_calls_keep_to_port_started :
    ∃ s : SerialState Unit, (serialRequests fun p => p = 3).ReachableUnder LineNonneg s ∧
      RequestKeeps s (lineRequest mbserialCmdShutdown 3) ∧
      GetKeeps s 7 true none ∧ mfMbserialSendAccepts s 3 (some 0x1000) 5 = true := by
  have hstart : (serialRequests fun p => p = 3).ReachableUnder (LineNonneg (β := Unit)) _ := .start
  have hreach := hstart.next (a := .request (lineRequest mbserialCmdStartup 3)) (by decide) rfl
  obtain ⟨hrequest, hget, haccept⟩ := serial_calls_keep_to_port _ hreach
  exact ⟨_, hreach, (hrequest _).mpr (by decide), (hget 7 true none).mpr (by decide),
    (haccept 3 _ 5 (by decide) (by decide)).mpr (by decide)⟩

/-- A request for line `0xffffffff`, and a call for line -1, index `allports` below its
start. -/
theorem serial_line_below_allports :
    ¬ RequestKeeps (serialStart (fun _ => true) : SerialState Unit)
        (lineRequest mbserialCmdStartup 0xffffffff) ∧
      ¬ GetKeeps (serialStart (fun _ => true) : SerialState Unit) (-1) true none := by
  constructor
  · rintro ⟨t, ret, hserve, -⟩
    cases hserve
  · rintro ⟨t, ser, hget, -⟩
    cases hget

end Mflib.Serial
