import Mflib.Serial.Stream

/-! The stream a line carries is the calls' data.

The thread in a port's `lock` is the only one that appends transfers of its line. So
the transfers split into one group for each call, in the order of the lock
(`stream_step`): those before the last are complete, and the last has what the thread
in the lock has sent so far. -/
namespace Mflib.Serial
open Circular Micproto

section
variable {β T : Type}

/-- The call of a thread that has its port's `lock`. -/
def SendPc.held : SendPc β → Option SendCall
  | .alloc k _ => some k
  | .fill k _ _ => some k
  | .submit k _ _ => some k
  | .sending k _ _ => some k
  | .unlock k _ => some k
  | _ => none

/-- How many bytes a call has had appended. -/
def SendPc.appended : SendPc β → SubmitPc β → Nat
  | .alloc _ done, _ => done
  | .fill _ done _, _ => done
  | .submit _ done _, _ => done
  | .sending _ done _, .insert _ => done
  | .sending _ done len, _ => done + len
  | .unlock _ done, _ => done
  | _, _ => 0

def Stream.progress (s : Stream β T) (t : T) : Nat :=
  (s.send.sender t).appended (s.send.net.out.submitter t)

/-- The thread in a port's `lock`, if there is one, and no other is in a call on it that
is past taking it. -/
def Locked (s : SendState β T) : Prop :=
  ∀ p t, (s.port p).lock = some t ↔ ∃ k, (s.sender t).held = some k ∧ k.port = p

/-- The last call of a port is under way: its group is what it has sent so far, and
the calls before it are complete. -/
structure Underway (s : Stream β T) (p : Fin maxMbserialNum) (t : T) (k : SendCall) (dry : Bool)
    (before : List (Call T)) (groups : List (List (Appended β))) (group : List (Appended β)) :
    Prop where
  calls : s.calls p = before ++ [⟨t, k.data, none, dry⟩]
  transfers : s.transfers p = groups.flatten ++ group
  carries : List.Forall₂ (Carries p) before groups
  complete : ∀ c ∈ before, c.ret ≠ none
  proper : ∀ x ∈ group, Proper p x
  data : payloads group = k.data.take (s.progress t)
  dry : ∀ done, s.send.sender t = .unlock k done → done < k.data.length → dry = true

/-- The transfers of a line are the groups of its calls, the last of which may be
under way. -/
inductive PortStream (s : Stream β T) (p : Fin maxMbserialNum) : Prop where
  | free {groups : List (List (Appended β))} : (s.send.port p).lock = none →
      s.transfers p = groups.flatten → List.Forall₂ (Carries p) (s.calls p) groups →
      (∀ c ∈ s.calls p, c.ret ≠ none) → PortStream s p
  | held {t : T} {k : SendCall} : (s.send.port p).lock = some t →
      (s.send.sender t).held = some k →
      (∃ dry before groups group, Underway s p t k dry before groups group) → PortStream s p

/-! ### The groups of a line -/

section
variable {s u : Stream β T} {p : Fin maxMbserialNum}

theorem PortStream.keep (hp : PortStream s p)
    (hlock : (u.send.port p).lock = (s.send.port p).lock) (hcalls : u.calls p = s.calls p)
    (htransfers : u.transfers p = s.transfers p)
    (hholder : ∀ t k, (s.send.port p).lock = some t → (s.send.sender t).held = some k →
      (u.send.sender t).held = some k ∧ u.progress t = s.progress t ∧
      ∀ done, u.send.sender t = .unlock k done → done < k.data.length →
        s.send.sender t = .unlock k done) : PortStream u p := by
  cases hp with
  | free hfree hgroups hcarries hclosed =>
    refine .free (hlock.trans hfree) (htransfers.trans hgroups) ?_ ?_
    · rw [hcalls]
      exact hcarries
    · rw [hcalls]
      exact hclosed
  | @held t k hin hk hunder =>
    obtain ⟨hheld, hprogress, hleaving⟩ := hholder t k hin hk
    obtain ⟨dry, before, groups, group, hunder⟩ := hunder
    refine .held (hlock.trans hin) hheld ⟨dry, before, groups, group, ?_⟩
    refine ⟨hcalls.trans hunder.calls, htransfers.trans hunder.transfers, hunder.carries,
      hunder.complete, hunder.proper, ?_,
      fun done hpc hlt => hunder.dry done (hleaving done hpc hlt) hlt⟩
    rw [hprogress]
    exact hunder.data

/-- What a thread does that is in no call on a port leaves the port's groups alone. -/
theorem PortStream.other (hp : PortStream s p) (hh : Locked s.send) {c : T}
    (hc : ∀ k, (s.send.sender c).held = some k → k.port ≠ p)
    (hlock : (u.send.port p).lock = (s.send.port p).lock) (hcalls : u.calls p = s.calls p)
    (htransfers : u.transfers p = s.transfers p)
    (hothers : ∀ t, t ≠ c → u.send.sender t = s.send.sender t ∧
      u.send.net.out.submitter t = s.send.net.out.submitter t) : PortStream u p := by
  refine hp.keep hlock hcalls htransfers fun t k hin hk => ?_
  have htc : t ≠ c := by
    intro he
    subst he
    obtain ⟨k', hk', hport⟩ := (hh p t).mp hin
    exact hc k' hk' hport
  obtain ⟨hsender, hsub⟩ := hothers t htc
  refine ⟨?_, ?_, fun done hpc _ => ?_⟩
  · rw [hsender]
    exact hk
  · simp only [Stream.progress, hsender, hsub]
  · rw [← hsender]
    exact hpc

/-- The only call that has not returned is amended. -/
theorem amend_last [DecidableEq T] {closed : List (Call T)} (h : ∀ c ∈ closed, c.ret ≠ none)
    (f : Call T → Call T) {c : Call T} (hc : c.ret = none) :
    (closed ++ [c]).map (Call.amend c.caller f) = closed ++ [f c] := by
  rw [List.map_append, List.map_singleton, Call.amend, if_pos ⟨rfl, hc⟩]
  congr 1
  induction closed with
  | nil => rfl
  | cons d rest ih =>
    have hd := h d (by simp)
    have hrest := ih fun c hc => h c (List.mem_cons_of_mem d hc)
    rw [List.map_cons, hrest, Call.amend, if_neg fun hboth => hd hboth.2]

theorem PortStream.mine (hp : PortStream s p) {c : T} (hin : (s.send.port p).lock = some c)
    {k : SendCall} (hk : (s.send.sender c).held = some k) :
    ∃ dry before groups group, Underway s p c k dry before groups group := by
  cases hp with
  | free hfree _ _ _ =>
    rw [hin] at hfree
    cases hfree
  | held hin' hk' hunder =>
    rw [hin] at hin'
    cases hin'
    rw [hk] at hk'
    cases hk'
    exact hunder

/-- A call takes the lock. -/
theorem PortStream.take (hp : PortStream s p) {c : T} {k : SendCall}
    (hfree : (s.send.port p).lock = none) (hin : (u.send.port p).lock = some c)
    (hpc : u.send.sender c = .alloc k 0)
    (hcalls : u.calls p = s.calls p ++ [⟨c, k.data, none, false⟩])
    (htransfers : u.transfers p = s.transfers p) : PortStream u p := by
  cases hp with
  | held hin' =>
    rw [hfree] at hin'
    cases hin'
  | @free groups _ hgroups hcarries hclosed =>
    have hheld : (u.send.sender c).held = some k := by rw [hpc]; rfl
    refine .held hin hheld ⟨false, s.calls p, groups, [], hcalls, ?_, hcarries, hclosed, ?_, ?_, ?_⟩
    · rw [htransfers, hgroups, List.append_nil]
    · intro x hx
      cases hx
    · simp [payloads, Stream.progress, hpc, SendPc.appended]
    · intro done hdone
      rw [hpc] at hdone
      cases hdone

variable {t : T} {k : SendCall} {dry : Bool} {before : List (Call T)}
  {groups : List (List (Appended β))} {group : List (Appended β)}

/-- A call appends transfers, or finds the pool empty. -/
theorem Underway.advance (hunder : Underway s p t k dry before groups group) (dry' : Bool)
    (more : List (Appended β)) (hin : (u.send.port p).lock = some t)
    (hheld : (u.send.sender t).held = some k)
    (hcalls : u.calls p = before ++ [⟨t, k.data, none, dry'⟩])
    (htransfers : u.transfers p = s.transfers p ++ more) (hproper : ∀ x ∈ more, Proper p x)
    (hdata : k.data.take (u.progress t) = k.data.take (s.progress t) ++ payloads more)
    (hdry : ∀ done, u.send.sender t = .unlock k done → done < k.data.length → dry' = true) :
    PortStream u p := by
  refine .held hin hheld ⟨dry', before, groups, group ++ more, hcalls, ?_, hunder.carries,
    hunder.complete, ?_, ?_, hdry⟩
  · rw [htransfers, hunder.transfers, List.append_assoc]
  · intro x hx
    rcases List.mem_append.mp hx with hx | hx
    · exact hunder.proper x hx
    · exact hproper x hx
  · rw [hdata, ← hunder.data]
    exact List.flatMap_append

/-- A call returns the number of bytes it has had appended. -/
theorem Underway.finish (hunder : Underway s p t k dry before groups group) {done : Nat}
    (hpc : s.send.sender t = .unlock k done) (hle : done ≤ k.data.length)
    (hfree : (u.send.port p).lock = none)
    (hcalls : u.calls p = before ++ [⟨t, k.data, some done, dry⟩])
    (htransfers : u.transfers p = s.transfers p) : PortStream u p := by
  have hdata : payloads group = k.data.take done := by
    rw [hunder.data, Stream.progress, hpc]
    rfl
  have hlast : Carries p ⟨t, k.data, some done, dry⟩ group := by
    refine ⟨hunder.proper, ?_, fun ret hret => ?_⟩
    · rw [hdata]
      exact List.take_prefix _ _
    · cases hret
      exact ⟨hdata, hle, hunder.dry done hpc⟩
  have hflat : u.transfers p = (groups ++ [group]).flatten := by
    rw [htransfers, hunder.transfers]
    simp
  refine .free hfree hflat ?_ ?_
  · rw [hcalls]
    exact List.rel_append hunder.carries (.cons hlast .nil)
  · rw [hcalls]
    intro c hc
    rcases List.mem_append.mp hc with hc | hc
    · exact hunder.complete c hc
    · rw [List.mem_singleton] at hc
      subst hc
      exact Option.some_ne_none done

end

variable [DecidableEq β] [DecidableEq T]

structure StreamInv [Fintype T] (size : Word) (edata : β → Pointer) (s : Stream β T) : Prop where
  blocks : ∃ batch pend inp free,
    SendInv (fun m => mreqbWaitedAlloc size (edata m)) s.send batch pend inp free
  placed : ∀ t, Placed s.send (s.send.sender t) (s.send.net.out.submitter t)
  locked : Locked s.send
  ports : ∀ p, PortStream s p

/-! ### Where the threads are -/

section
variable {s u : SendState β T} {batch pend inp free : List β}

/-- The pool is asked for a block only while there are bytes left. -/
theorem alloc_room {c : T} {k : SendCall} {done : Nat} {m : β} (hc : s.sender c = .alloc k done)
    (h : sendStep s (.alloc c) = some u) (hu : u.sender c = .fill k done m) :
    done < k.data.length := by
  by_contra hge
  simp only [sendStep, hc, if_neg hge] at h
  cases h
  simp [SendState.setSender] at hu

omit [DecidableEq T] [DecidableEq β] in
/-- In `mreqb_submit` a thread is sending, and it is still when it has linked the block. -/
theorem Placed.sending {pc : SendPc β} {sub : SubmitPc β} (hp : Placed s pc sub)
    (hsub : sub ≠ .outside) : ∃ k done, pc = .sending k done (k.chunk done).length ∧
      done < k.data.length ∧ ∀ m, sub = .insert m → Filled s k done m := by
  cases pc with
  | sending k done len =>
    obtain ⟨hlt, rfl, hf⟩ := hp
    exact ⟨k, done, rfl, hlt, hf⟩
  | alloc | unlock | fill | submit => exact absurd hp.1 hsub
  | outside | status | lock => exact absurd hp hsub

/-- Every step leaves every thread where it may be. -/
theorem sendStep_placed [Fintype T] {size : Word} {edata : β → Pointer}
    (hi : SendInv (fun m => mreqbWaitedAlloc size (edata m)) s batch pend inp free)
    (hp : ∀ t, Placed s (s.sender t) (s.net.out.submitter t)) {a : SendAction β T}
    (h : sendStep s a = some u) (t : T) : Placed u (u.sender t) (u.net.out.submitter t) := by
  have hkeep : ∀ t, Placed u (s.sender t) (s.net.out.submitter t) := fun t => (hp t).step hi h
  have hat : ∀ {c : T} {pc : SendPc β}, s.sender c = pc → Placed u pc (s.net.out.submitter c) := by
    intro c pc hc
    rw [← hc]
    exact hkeep c
  have hmove : ∀ {c : T} {pc : SendPc β}, u.sender = Function.update s.sender c pc →
      u.net.out.submitter = s.net.out.submitter → Placed u pc (s.net.out.submitter c) →
      Placed u (u.sender t) (u.net.out.submitter t) := by
    intro c pc hsender hsub hc
    rw [hsender, hsub]
    by_cases htc : t = c
    · subst htc
      rw [Function.update_self]
      exact hc
    · rw [Function.update_of_ne htc]
      exact hkeep t
  cases sendStep_cases h with
  | nothing hc | send hc | down hc _ | up hc _ =>
    have hplace := hat hc
    exact hmove rfl rfl hplace
  | lock hc _ => exact hmove rfl rfl ⟨hat hc, Nat.zero_le _⟩
  | alloc hc halloc =>
    obtain ⟨hout, _⟩ := hat hc
    exact hmove rfl rfl ⟨hout, alloc_room hc h (Function.update_self _ _ _)⟩
  | leave hc _ =>
    have hplace := hat hc
    exact hmove rfl rfl hplace
  | fill hc _ hv =>
    obtain ⟨hout, hlt⟩ := hat hc
    exact hmove rfl rfl ⟨hout, hlt, fill_filled hi hc hv⟩
  | @submit c k done m net hc hs =>
    obtain ⟨_, hlt, hf⟩ := hat hc
    show Placed _ (Function.update s.sender c _ t) (net.out.submitter t)
    rw [submit_submitter hs]
    by_cases htc : t = c
    · subst htc
      rw [Function.update_self, Function.update_self]
      refine ⟨hlt, rfl, fun b hb => ?_⟩
      cases hb
      exact hf
    · rw [Function.update_of_ne htc, Function.update_of_ne htc]
      exact hkeep t
  | sent hc hout =>
    obtain ⟨hlt, rfl, _⟩ := hat hc
    exact hmove rfl rfl ⟨hout, (chunk_length hlt).2.2⟩
  | unlock hc => exact hmove rfl rfl (hat hc).1
  | portStatus | remoteBytes => exact hkeep t
  | skip _ _ hs | complete _ _ hs =>
    have hplace := hkeep t
    rw [← process_submitter hs] at hplace
    exact hplace
  | @net a net hself hs =>
    have hplace := hkeep t
    show Placed _ (s.sender t) (net.out.submitter t)
    rcases submitter_byItself hs hself t with hsame | ⟨m, _, hold, hnew⟩ | ⟨_, hold, hnew⟩
    · rw [hsame]
      exact hplace
    · rw [hold] at hplace
      obtain ⟨k, done, hpc, hlt, _⟩ := hplace.sending (by simp)
      rw [hpc, hnew]
      exact ⟨hlt, rfl, fun _ hm => by cases hm⟩
    · rw [hold] at hplace
      obtain ⟨k, done, hpc, hlt, _⟩ := hplace.sending (by simp)
      rw [hpc, hnew]
      exact ⟨hlt, rfl, fun _ hm => by cases hm⟩

/-! ### Who has a port's lock -/

omit [DecidableEq T] [DecidableEq β] in
theorem Locked.same (hh : Locked s) (hlock : ∀ p, (u.port p).lock = (s.port p).lock)
    (hheld : ∀ t, (u.sender t).held = (s.sender t).held) : Locked u := by
  intro p t
  rw [hlock, hheld]
  exact hh p t

omit [DecidableEq β] in
theorem held_update {sender : T → SendPc β} {c : T} {pc : SendPc β}
    (h : pc.held = (sender c).held) (t : T) :
    (Function.update sender c pc t).held = (sender t).held := by
  by_cases htc : t = c
  · subst htc
    rw [Function.update_self]
    exact h
  · rw [Function.update_of_ne htc]

omit [DecidableEq β] in
/-- A thread without a lock takes one that is free. -/
theorem Locked.take (hh : Locked s) {c : T} {k : SendCall} {pc : SendPc β} {status : Word}
    (hc : (s.sender c).held = none) (hfree : (s.port k.port).lock = none) (hpc : pc.held = some k) :
    Locked ((s.setSender c pc).setPort k.port ⟨status, some c⟩) := by
  intro p t
  have hold := hh p t
  by_cases hp : p = k.port
  · subst hp
    simp only [SendState.setPort, SendState.setSender, Function.update_self, Option.some.injEq]
    by_cases htc : t = c
    · subst htc
      simp [hpc]
    · rw [hfree] at hold
      simp only [Function.update_of_ne htc, ← hold, reduceCtorEq, iff_false]
      exact Ne.symm htc
  · simp only [SendState.setPort, SendState.setSender, Function.update_of_ne hp]
    by_cases htc : t = c
    · subst htc
      simp only [hold, hc, Function.update_self, hpc, Option.some.injEq, exists_eq_left', reduceCtorEq,
        false_and, exists_false, false_iff]
      exact Ne.symm hp
    · simp only [Function.update_of_ne htc]
      exact hold

omit [DecidableEq β] in
/-- The thread in a lock leaves it. -/
theorem Locked.leave (hh : Locked s) {c : T} {k : SendCall} {pc : SendPc β} {status : Word}
    (hc : (s.sender c).held = some k) (hpc : pc.held = none) :
    Locked ((s.setSender c pc).setPort k.port ⟨status, none⟩) := by
  have hin : (s.port k.port).lock = some c := (hh k.port c).mpr ⟨k, hc, rfl⟩
  intro p t
  have hold := hh p t
  by_cases hp : p = k.port
  · subst hp
    simp only [SendState.setPort, SendState.setSender, Function.update_self, reduceCtorEq, false_iff]
    by_cases htc : t = c
    · subst htc
      simp [hpc]
    · rw [Function.update_of_ne htc, ← hold, hin, Option.some.injEq]
      exact Ne.symm htc
  · simp only [SendState.setPort, SendState.setSender, Function.update_of_ne hp]
    by_cases htc : t = c
    · subst htc
      simp only [hold, hc, Function.update_self, hpc, Option.some.injEq, exists_eq_left', reduceCtorEq,
        false_and, exists_false, iff_false]
      exact Ne.symm hp
    · simp only [Function.update_of_ne htc]
      exact hold

theorem sendStep_locked (hh : Locked s) {a : SendAction β T} (h : sendStep s a = some u) :
    Locked u := by
  have hmove : ∀ {c : T} {pc : SendPc β}, u.sender = Function.update s.sender c pc →
      pc.held = (s.sender c).held → u.port = s.port → Locked u := by
    intro c pc hsender hpc hport
    refine hh.same (fun p => by rw [hport]) fun t => ?_
    rw [hsender]
    exact held_update hpc t
  cases sendStep_cases h with
  | nothing hc | send hc | down hc _ | up hc _ | alloc hc _ | leave hc _ | fill hc _ _
  | submit hc _ | sent hc _ => exact hmove rfl (congrArg SendPc.held hc).symm rfl
  | lock hc hfree => exact hh.take (congrArg SendPc.held hc) hfree rfl
  | unlock hc => exact hh.leave (congrArg SendPc.held hc) rfl
  | @portStatus q status =>
    refine hh.same (fun p => ?_) fun _ => rfl
    by_cases hp : p = q
    · subst hp
      simp [SendState.setPort]
    · simp [SendState.setPort, hp]
  | remoteBytes | skip | complete | net => exact hh

end

/-! ### One step -/

section
variable [Fintype T] {size : Word} {edata : β → Pointer} {s : Stream β T} {v : SendState β T}

omit [Fintype T] in
theorem follow_transfers (a : SendAction β T) (p : Fin maxMbserialNum) :
    (s.follow a v).transfers p =
      s.transfers p ++ (a.appends s.send).filter (Appended.isTransfer p) :=
  List.filter_append _ _

omit [Fintype T] in
theorem follow_quiet {a : SendAction β T} (h : a.appends s.send = []) (p : Fin maxMbserialNum) :
    (s.follow a v).transfers p = s.transfers p := by
  rw [follow_transfers, h]
  exact List.append_nil _

/-- A call on a port that is not the one a thread is in a call on is no other thread's step. -/
theorem StreamInv.other (hi : StreamInv size edata s) {a : SendAction β T} {c : T} {pc : SendPc β}
    {p : Fin maxMbserialNum} (hc : ∀ k, (s.send.sender c).held = some k → k.port ≠ p)
    (hsender : v.sender = Function.update s.send.sender c pc)
    (hsub : ∀ t, t ≠ c → v.net.out.submitter t = s.send.net.out.submitter t)
    (hlock : (v.port p).lock = (s.send.port p).lock)
    (hcalls : a.books s.send s.calls p = s.calls p) (happends : a.appends s.send = []) :
    PortStream (s.follow a v) p := by
  refine (hi.ports p).other hi.locked hc hlock hcalls (follow_quiet happends p)
    fun t ht => ⟨?_, hsub t ht⟩
  show v.sender t = s.send.sender t
  rw [hsender, Function.update_of_ne ht]

omit [DecidableEq T] in
/-- A thread that is past its lock has it, and its call is the last of its port. -/
theorem StreamInv.underway (hi : StreamInv size edata s) {c : T} {k : SendCall}
    (hc : (s.send.sender c).held = some k) :
    (s.send.port k.port).lock = some c ∧
      ∃ dry before groups group, Underway s k.port c k dry before groups group := by
  have hin : (s.send.port k.port).lock = some c := (hi.locked _ c).mpr ⟨k, hc, rfl⟩
  exact ⟨hin, (hi.ports k.port).mine hin hc⟩

theorem lock_ports (hi : StreamInv size edata s) {c : T} {k : SendCall}
    (hc : s.send.sender c = .lock k) (hfree : (s.send.port k.port).lock = none)
    (p : Fin maxMbserialNum) :
    PortStream (s.follow (.lock c) ((s.send.setSender c (.alloc k 0)).setPort k.port
      {s.send.port k.port with lock := some c})) p := by
  have hbooks : (SendAction.lock c).books s.send s.calls = Function.update s.calls k.port
      (s.calls k.port ++ [⟨c, k.data, none, false⟩]) := by
    simp only [SendAction.books, hc]
  by_cases hp : p = k.port
  · subst hp
    refine (hi.ports _).take hfree (c := c) (k := k) ?_ ?_ ?_ (follow_quiet rfl _)
    · simp [Stream.follow, SendState.setPort]
    · simp [Stream.follow, SendState.setPort, SendState.setSender]
    · simp only [Stream.follow, hbooks, Function.update_self]
  · refine hi.other (fun k' hk' => ?_) rfl (fun _ _ => rfl) ?_ ?_ rfl
    · rw [hc] at hk'
      cases hk'
    · simp [SendState.setPort, SendState.setSender, hp]
    · rw [hbooks, Function.update_of_ne hp]

/-- A thread that is past its lock goes on with its call. -/
theorem StreamInv.onward (hi : StreamInv size edata s) {a : SendAction β T} {c : T} {k : SendCall}
    {p : Fin maxMbserialNum} (pc : SendPc β) (hc : (s.send.sender c).held = some k)
    (hpc : pc.held = some k) (hsender : v.sender = Function.update s.send.sender c pc)
    (hsub : ∀ t, t ≠ c → v.net.out.submitter t = s.send.net.out.submitter t)
    (hport : v.port = s.send.port)
    (hprogress : pc.appended (v.net.out.submitter c) = s.progress c)
    (hleaving : ∀ done, pc = .unlock k done → done < k.data.length → s.send.sender c = .unlock k done)
    (hcalls : a.books s.send s.calls = s.calls) (happends : a.appends s.send = []) :
    PortStream (s.follow a v) p := by
  have hself : v.sender c = pc := by rw [hsender, Function.update_self]
  have hlock : (v.port p).lock = (s.send.port p).lock := by rw [hport]
  by_cases hp : k.port = p
  · refine (hi.ports p).keep hlock (congrFun hcalls p) (follow_quiet happends p) fun t k' hin hk' => ?_
    obtain ⟨k'', hk'', hport'⟩ := (hi.locked p t).mp hin
    have hin' := (hi.locked p c).mpr ⟨k, hc, hp⟩
    rw [hin] at hin'
    cases hin'
    rw [hc] at hk'
    cases hk'
    refine ⟨?_, ?_, fun done hdone => hleaving done ?_⟩
    · show (v.sender c).held = _
      rw [hself, hpc]
    · show (v.sender c).appended (v.net.out.submitter c) = _
      rw [hself, hprogress]
    · rw [← hself]
      exact hdone
  · refine hi.other (fun k' hk' => ?_) hsender hsub hlock (congrFun hcalls p) happends
    rw [hc] at hk'
    cases hk'
    exact hp

/-- No thread moves in its call. -/
theorem StreamInv.quiet (hi : StreamInv size edata s) {a : SendAction β T} {p : Fin maxMbserialNum}
    (hsender : v.sender = s.send.sender)
    (hsub : ∀ t, v.net.out.submitter t = s.send.net.out.submitter t)
    (hlock : ∀ p, (v.port p).lock = (s.send.port p).lock) (hcalls : a.books s.send s.calls = s.calls)
    (happends : a.appends s.send = []) : PortStream (s.follow a v) p := by
  refine (hi.ports p).keep (hlock p) (congrFun hcalls p) (follow_quiet happends p)
    fun t k _ hk => ⟨?_, ?_, fun done hdone _ => ?_⟩
  · exact (congrArg SendPc.held (congrFun hsender t)).trans hk
  · simp only [Stream.progress, Stream.follow, hsender, hsub]
  · exact (congrFun hsender t).symm.trans hdone

/-- A thread moves that is not past its lock. -/
theorem StreamInv.aside (hi : StreamInv size edata s) {a : SendAction β T} {c : T} {pc : SendPc β}
    {p : Fin maxMbserialNum} (hc : (s.send.sender c).held = none)
    (hsender : v.sender = Function.update s.send.sender c pc)
    (hsub : v.net.out.submitter = s.send.net.out.submitter) (hport : v.port = s.send.port)
    (hcalls : a.books s.send s.calls = s.calls) (happends : a.appends s.send = []) :
    PortStream (s.follow a v) p := by
  refine hi.other (fun k hk => ?_) hsender (fun t _ => congrFun hsub t) ?_ (congrFun hcalls p)
    happends
  · rw [hc] at hk
    cases hk
  · rw [hport]

/-- The pool is empty, or there are no bytes left. -/
theorem leave_ports (hi : StreamInv size edata s) {c : T} {k : SendCall} {done : Nat}
    (hc : s.send.sender c = .alloc k done)
    (hempty : done < k.data.length → (mreqbReservepoolAlloc s.send.net.out.links).1 = none)
    (p : Fin maxMbserialNum) :
    PortStream (s.follow (.alloc c) (s.send.setSender c (.unlock k done))) p := by
  by_cases hlt : done < k.data.length
  · have hbooks : (SendAction.alloc c).books s.send s.calls = Function.update s.calls k.port
        ((s.calls k.port).map (Call.amend c fun c => {c with dry := true})) := by
      simp only [SendAction.books, hc, if_pos (And.intro hlt (hempty hlt))]
    by_cases hp : p = k.port
    · subst hp
      obtain ⟨hin, dry, before, groups, group, hunder⟩ := hi.underway (congrArg SendPc.held hc)
      have hpc : (s.follow (.alloc c) (s.send.setSender c (.unlock k done))).send.sender c =
          .unlock k done := Function.update_self _ _ _
      refine hunder.advance true [] hin ?_ ?_ ?_ ?_ ?_ fun _ _ _ => rfl
      · rw [hpc]
        rfl
      · show (SendAction.alloc c).books s.send s.calls k.port = _
        rw [hbooks, Function.update_self, hunder.calls]
        exact amend_last hunder.complete _ (c := ⟨c, k.data, none, dry⟩) rfl
      · rw [follow_quiet rfl, List.append_nil]
      · intro x hx
        cases hx
      · simp [Stream.progress, hpc, hc, SendPc.appended, payloads]
    · refine hi.other (fun k' hk' => ?_) rfl (fun _ _ => rfl) rfl ?_ rfl
      · rw [hc] at hk'
        cases hk'
        exact Ne.symm hp
      · rw [hbooks, Function.update_of_ne hp]
  · have hbooks : (SendAction.alloc c).books s.send s.calls = s.calls := by
      simp only [SendAction.books, hc, if_neg fun h : _ ∧ _ => hlt h.1]
    have hprogress : s.progress c = done := by
      rw [Stream.progress, hc]
      rfl
    refine hi.onward (.unlock k done) (congrArg SendPc.held hc) rfl rfl (fun _ _ => rfl) rfl
      hprogress.symm (fun d hd hdlt => ?_) hbooks rfl
    cases hd
    exact absurd hdlt hlt

theorem unlock_ports (hi : StreamInv size edata s) {c : T} {k : SendCall} {done : Nat}
    (hc : s.send.sender c = .unlock k done) (p : Fin maxMbserialNum) :
    PortStream (s.follow (.unlock c) ((s.send.return c done).setPort k.port
      {s.send.port k.port with lock := none})) p := by
  have hbooks : (SendAction.unlock c).books s.send s.calls = Function.update s.calls k.port
      ((s.calls k.port).map (Call.amend c fun c => {c with ret := some done})) := by
    simp only [SendAction.books, hc]
  by_cases hp : p = k.port
  · subst hp
    obtain ⟨_, dry, before, groups, group, hunder⟩ := hi.underway (congrArg SendPc.held hc)
    have hplace := hi.placed c
    rw [hc] at hplace
    refine hunder.finish hc hplace.2 ?_ ?_ (follow_quiet rfl _)
    · simp [Stream.follow, SendState.setPort]
    · show (SendAction.unlock c).books s.send s.calls k.port = _
      rw [hbooks, Function.update_self, hunder.calls]
      exact amend_last hunder.complete _ (c := ⟨c, k.data, none, dry⟩) rfl
  · refine hi.other (fun k' hk' => ?_) rfl (fun _ _ => rfl) ?_ ?_ rfl
    · rw [hc] at hk'
      cases hk'
      exact Ne.symm hp
    · simp [SendState.setPort, SendState.return, SendState.setSender, hp]
    · rw [hbooks, Function.update_of_ne hp]

omit [Fintype T] [DecidableEq β] [DecidableEq T] in
theorem line_injective {p q : Fin maxMbserialNum}
    (h : BitVec.ofNat 32 p.val = BitVec.ofNat 32 q.val) : p = q := by
  apply Fin.ext
  have hnat := congrArg BitVec.toNat h
  have hp : p.val < 8 := p.isLt
  have hq : q.val < 8 := q.isLt
  simp only [BitVec.toNat_ofNat] at hnat
  omega

omit [Fintype T] [DecidableEq β] [DecidableEq T] in
/-- What a thread links in `mreqb_submit` is the next transfer of its call. -/
theorem insert_appends {c : T} {k : SendCall} {done : Nat} {m : β} (hf : Filled s.send k done m)
    (hlt : done < k.data.length) (hc : s.send.net.out.submitter c = .insert m) :
    ∃ x, (SendAction.net (.out (.insert c))).appends s.send = [x] ∧ Proper k.port x ∧
      x.payload = k.chunk done ∧ ∀ p, x.isTransfer p = decide (p = k.port) := by
  have hresponse : mreqbIsResponse (s.send.net.out.mem m) = false := by
    rw [mreqbIsResponse, hf.cmd]
    rfl
  obtain ⟨hpos, hle, _⟩ := chunk_length hlt
  have hpayload : Appended.payload ⟨m, s.send.net.out.mem m, s.send.bytes m⟩ = k.chunk done := by
    have hlen : (BitVec.ofNat 32 (k.chunk done).length).toNat = (k.chunk done).length := by
      rw [BitVec.toNat_ofNat]
      omega
    simp only [Appended.payload, hf.len, hlen, hf.data]
  refine ⟨⟨m, s.send.net.out.mem m, s.send.bytes m⟩, ?_, ⟨hf.argc, hf.line, ?_, ?_⟩, hpayload,
    fun p => ?_⟩
  · simp [SendAction.appends, hc, hresponse]
  · rw [hpayload]
    exact hpos
  · rw [hpayload]
    exact hle
  · simp only [Appended.isTransfer, hf.cmd, hf.subcmd, hf.line, true_and, decide_eq_decide]
    exact ⟨fun h => (line_injective h).symm, fun h => by rw [h]⟩

/-- A thread links its block: the transfer joins the group of its call. -/
theorem insert_ports (hi : StreamInv size edata s) {c : T} {m : β} {net : Transport β T}
    (hc : s.send.net.out.submitter c = .insert m)
    (hs : transportStep s.send.net (.out (.insert c)) = some net) (p : Fin maxMbserialNum) :
    PortStream (s.follow (.net (.out (.insert c)))
      {s.send with net := net, returned := s.send.returned ++ []}) p := by
  have hplace := hi.placed c
  rw [hc] at hplace
  obtain ⟨k, done, hpc, hlt, hf⟩ := hplace.sending (by simp)
  obtain ⟨x, happends, hproper, hpayload, htransfer⟩ := insert_appends (hf m rfl) hlt hc
  have hset : net.out.submitter c = .setbits := by
    rw [(insert_submitter hs).2, Function.update_self]
  by_cases hp : p = k.port
  · subst hp
    have hheld : (s.send.sender c).held = some k := congrArg SendPc.held hpc
    obtain ⟨hin, dry, before, groups, group, hunder⟩ := hi.underway hheld
    refine hunder.advance dry [x] hin hheld hunder.calls ?_ ?_ ?_ fun d hd => ?_
    · rw [follow_transfers, happends]
      simp [htransfer]
    · simpa using hproper
    · simp only [Stream.progress, Stream.follow, hpc, hc, hset, SendPc.appended, payloads]
      simp [take_chunk, hpayload]
    · exact absurd (hpc.symm.trans hd) (by simp)
  · refine (hi.ports p).other (c := c) hi.locked (fun k' hk' => ?_) rfl rfl ?_ fun t ht => ⟨rfl, ?_⟩
    · rw [hpc] at hk'
      cases hk'
      exact Ne.symm hp
    · rw [follow_transfers, happends]
      simp [htransfer, hp]
    · show net.out.submitter t = _
      rw [(insert_submitter hs).2, Function.update_of_ne ht]

/-- A thread of the protocol or the remote takes a step that links no block. -/
theorem net_ports (hi : StreamInv size edata s) {a : TransportAction β T} {net : Transport β T}
    (hself : a.byItself = true) (hs : transportStep s.send.net a = some net)
    (hinsert : ∀ c, a ≠ .out (.insert c)) (p : Fin maxMbserialNum) :
    PortStream (s.follow (.net a)
      {s.send with net := net, returned := s.send.returned ++ a.replied}) p := by
  have happends : (SendAction.net a).appends s.send = [] := by
    unfold SendAction.appends
    split
    · rename_i c he
      cases he
      exact absurd rfl (hinsert c)
    · rfl
  refine (hi.ports p).keep rfl rfl (follow_quiet happends p)
    fun t k _ hk => ⟨hk, ?_, fun done hdone _ => hdone⟩
  show (s.send.sender t).appended (net.out.submitter t) = s.progress t
  rcases submitter_byItself hs hself t with hsame | ⟨m, he, _, _⟩ | ⟨_, hold, hnew⟩
  · rw [hsame]
    rfl
  · exact absurd he (hinsert t)
  · have hplace := hi.placed t
    rw [hold] at hplace
    obtain ⟨k, done, hpc, _, _⟩ := hplace.sending (by simp)
    rw [Stream.progress, hpc, hold, hnew]
    rfl

/-- The groups of every line after a step. -/
theorem follow_ports (hi : StreamInv size edata s) {a : SendAction β T}
    (h : sendStep s.send a = some v) (p : Fin maxMbserialNum) : PortStream (s.follow a v) p := by
  cases sendStep_cases h with
  | nothing hc | send hc | down hc _ | up hc _ =>
    exact hi.aside (congrArg SendPc.held hc) rfl rfl rfl rfl rfl
  | lock hc hfree => exact lock_ports hi hc hfree p
  | @alloc c k done m links hc halloc =>
    have hbooks : (SendAction.alloc c).books s.send s.calls = s.calls := by
      simp [SendAction.books, hc, halloc]
    refine hi.onward (.fill k done m) (congrArg SendPc.held hc) rfl rfl (fun _ _ => rfl) rfl ?_
      (fun _ hd => by cases hd) hbooks rfl
    rw [Stream.progress, hc]
    rfl
  | leave hc hempty => exact leave_ports hi hc hempty p
  | @fill c k done m v hc _ _ =>
    refine hi.onward (.submit k done m) (congrArg SendPc.held hc) rfl rfl (fun _ _ => rfl) rfl ?_
      (fun _ hd => by cases hd) rfl rfl
    rw [Stream.progress, hc]
    rfl
  | @submit c k done m net hc hs =>
    refine hi.onward (.sending k done (k.chunk done).length) (congrArg SendPc.held hc) rfl rfl
      (fun t ht => ?_) rfl ?_ (fun _ hd => by cases hd) rfl rfl
    · exact (congrFun (submit_submitter hs) t).trans (Function.update_of_ne ht _ _)
    · show SendPc.appended _ (net.out.submitter c) = _
      rw [submit_submitter hs, Function.update_self, Stream.progress, hc]
      rfl
  | @sent c k done len hc hout =>
    refine hi.onward (.alloc k (done + len)) (congrArg SendPc.held hc) rfl rfl (fun _ _ => rfl) rfl ?_
      (fun _ hd => by cases hd) rfl rfl
    rw [Stream.progress, hc, hout]
    rfl
  | unlock hc => exact unlock_ports hi hc p
  | @portStatus q status =>
    refine hi.quiet rfl (fun _ => rfl) (fun p => ?_) rfl rfl
    by_cases hp : p = q
    · subst hp
      simp [SendState.setPort]
    · simp [SendState.setPort, hp]
  | remoteBytes => exact hi.quiet rfl (fun _ => rfl) (fun _ => rfl) rfl rfl
  | skip _ _ hs | complete _ _ hs =>
    exact hi.quiet rfl (fun t => congrFun (process_submitter hs) t) (fun _ => rfl) rfl rfl
  | @net a net hself hs =>
    by_cases hin : ∃ c, a = .out (.insert c)
    · obtain ⟨c, rfl⟩ := hin
      obtain ⟨⟨m, hc⟩, _⟩ := insert_submitter hs
      exact insert_ports hi hc hs p
    · exact net_ports hi hself hs (fun c he => hin ⟨c, he⟩) p

end

/-! ### Every run -/

variable [Fintype T]

theorem stream_step {size : Word} {edata : β → Pointer} {s u : Stream β T} {a : SendAction β T}
    (hi : StreamInv size edata s) (ha : RemoteBehaves s.send a) (h : streamStep s a = some u) :
    StreamInv size edata u := by
  obtain ⟨v, hv, rfl⟩ := Option.map_eq_some_iff.mp h
  obtain ⟨batch, pend, inp, free, hblocks⟩ := hi.blocks
  exact ⟨sendStep_inv hi.blocks ha hv, sendStep_placed hblocks hi.placed hv,
    sendStep_locked hi.locked hv, follow_ports hi hv⟩

omit [DecidableEq T] in
theorem stream_start (n : Nat) (size : Word) (edata : Fin n → Pointer) (links : Links (Fin n))
    (bytes : Fin n → List Byte) (port : Fin maxMbserialNum → Word) :
    StreamInv size edata (⟨sendStart n size edata links bytes port, [], fun _ => [], []⟩ :
      Stream (Fin n) T) where
  blocks := ⟨_, _, _, _, sendStart_inv n size edata links bytes port⟩
  placed := fun _ => rfl
  locked := fun p t => by simp [sendStart, SendPc.held]
  ports := fun _ => .free rfl List.flatten_nil.symm .nil fun c hc => by cases hc

omit [Fintype T] in
/-- A port that stays up turns away no call with data. -/
theorem turnedAway_step {p : Fin maxMbserialNum} {s u : Stream β T} {a : SendAction β T}
    (hi : (s.send.port p).status &&& portStatusUp ≠ 0 ∧
      ∀ k ∈ s.turnedAway, k.port = p → k.data = [])
    (ha : StaysUp p s a) (h : streamStep s a = some u) :
    (u.send.port p).status &&& portStatusUp ≠ 0 ∧
      ∀ k ∈ u.turnedAway, k.port = p → k.data = [] := by
  obtain ⟨v, hv, rfl⟩ := Option.map_eq_some_iff.mp h
  refine ⟨?_, fun k hk hp => ?_⟩
  · show (v.port p).status &&& portStatusUp ≠ 0
    have hset : ∀ (q : Fin maxMbserialNum) (lock : Option T),
        (Function.update s.send.port q {s.send.port q with lock := lock} p).status =
          (s.send.port p).status := by
      intro q lock
      by_cases hq : p = q
      · subst hq
        rw [Function.update_self]
      · rw [Function.update_of_ne hq]
    cases sendStep_cases hv with
    | @lock c k _ _ =>
      exact (congrArg (· &&& portStatusUp) (hset k.port (some c))).trans_ne hi.1
    | @unlock c k done _ =>
      exact (congrArg (· &&& portStatusUp) (hset k.port none)).trans_ne hi.1
    | @portStatus q status =>
      by_cases hq : p = q
      · subst hq
        simp only [SendState.setPort, Function.update_self]
        exact ha.2 rfl
      · simp only [SendState.setPort, Function.update_of_ne hq]
        exact hi.1
    | nothing | send | down | up | alloc | leave | fill | submit | sent | remoteBytes | skip
    | complete | net => exact hi.1
  · rcases List.mem_append.mp hk with hk | hk
    · exact hi.2 k hk hp
    · unfold SendAction.turnsAway at hk
      split at hk
      · rw [List.mem_singleton] at hk
        subst hk
        rfl
      · split at hk
        · split at hk
          · rename_i hdown
            rw [List.mem_singleton] at hk
            subst hk
            subst hp
            exact absurd hdown hi.1
          · cases hk
        · cases hk
      · cases hk

/-- A block the pool gives out has room for a chunk and its arguments. -/
theorem fill_fits {edata : β → Pointer} {s : SendState β T} {batch pend inp free : List β}
    (hi : SendInv (fun m => mreqbWaitedAlloc (BitVec.ofNat 32 preAllocDataSize) (edata m)) s
      batch pend inp free)
    (hdata : ∀ m, edata m ≠ none) {t : T} {k : SendCall} {done : Nat} {m : β}
    (ht : s.sender t = .fill k done m) : (sendStep s (.fill t)).isSome := by
  have hfresh := hi.fresh m (idle_of_taken ht free)
  have hlen : (k.chunk done).length ≤ 512 := by
    simp only [SendCall.chunk, preAllocDataSize, List.length_take]
    omega
  have hholds : Mreqb.holds (s.net.out.mem m) (k.chunk done).length := by
    rw [hfresh]
    exact ⟨hdata m, hlen⟩
  simp only [sendStep, ht, if_pos hholds]
  rw [hfresh]
  rfl

/-- On a pool of one block, 513 bytes are sent by one thread and a byte by another, which
waits for the lock. -/
def poolRunsDry : List (SendAction (Fin 1) (Fin 2)) :=
  [.send 0 3 (some (List.replicate 513 7)), .send 1 3 (some [9]), .status 0, .status 1, .lock 0,
   .alloc 0, .fill 0, .submit 0, .net (.out (.insert 0)), .net (.out (.setbits 0)), .sent 0, .alloc 0,
   .unlock 0, .lock 1, .alloc 1, .unlock 1]

end

end Mflib.Serial
