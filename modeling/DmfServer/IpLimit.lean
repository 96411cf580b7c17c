/-
# The IP limiter

`ip_check_valid`, in the variant of `mdb_operate.c` that does the work (the other one
has an empty body).  The limiter is a table of 1024 slots addressed by the `BKDRHash`
of the IP; a slot counts the requests of its current window of 60 seconds.

* A refusal starts the count anew (`归零次数`), so a window of 60 seconds lets through
  two thousand requests and 999 more for every refusal in it (`accepted_le`), and a
  flood reaches that rate (`exists_flood`).
* A slot keeps its IP but never compares it, so two IPs are told apart exactly when
  their hashes are (`unaffected_iff`).
-/
import DmfServer.Hashmap
import DmfServer.StepSystem
import Mathlib.Data.Vector.Basic

open CMem StepSystem

/-! ## The table -/

/-- `MAX_IP_LIMIT_HANDLE`. -/
def maxIpLimitHandle : ℕ := 1024

/-- `IpLimit`. -/
structure IpLimit where
  /-- The sixteen bytes of `ip`. -/
  ip : List UInt8
  timeStart : ℤ
  requestNum : ℤ
  invalidNum : ℤ
  abBan : ℤ
  deriving DecidableEq

/-- A slot as `mdb_operate_init` leaves it. -/
def IpLimit.zero : IpLimit :=
  { ip := List.replicate 16 0, timeStart := 0, requestNum := 0, invalidNum := 0, abBan := 0 }

/-- `shared_data`. -/
abbrev IpTable := Vector IpLimit maxIpLimitHandle

/-- The part of `mdb_operate_init` that clears the slots. -/
def ipLimitInit : IpTable := Vector.replicate _ .zero

/-- `strncpy(..., ip, 16)`: the text cut off or filled up with NULs. -/
def strncpy16 (ip : List UInt8) : List UInt8 :=
  (ip ++ List.replicate 16 0).take 16

/-- The index `ihash` of an IP. -/
def ipHash (ip : List UInt8) : ℕ :=
  if hashFunction ip > maxIpLimitHandle then hashFunction ip % maxIpLimitHandle
  else hashFunction ip

/-- What `ip_check_valid` does with the slot: the new slot and the returned `flag`. -/
def IpLimit.check (slot : IpLimit) (currTime : ℤ) : IpLimit × ℤ :=
  if slot.abBan ≠ 0 then (slot, 3)
  else if currTime - slot.timeStart ≥ 60 then
    ({ slot with timeStart := currTime, requestNum := 1 }, 0)
  else if slot.requestNum ≥ 1000 then
    let slot := { slot with
      timeStart := currTime, requestNum := 1, invalidNum := slot.invalidNum + 1 }
    (if slot.invalidNum ≥ 5 then { slot with abBan := 0 } else slot, 2)
  else ({ slot with requestNum := slot.requestNum + 1 }, 0)

/-- A call: the IP, the second it is made in, and whether `MapViewOfFile` succeeds. -/
structure IpCall where
  ip : List UInt8
  currTime : ℤ
  view : Bool
  deriving DecidableEq

/-- `ip_check_valid`: the table behind the call and the returned value. -/
def ipCheckValid (table : IpTable) (call : IpCall) : Except Fault (IpTable × ℤ) :=
  if call.view then
    if h : ipHash call.ip < maxIpLimitHandle then
      let slot := { table[ipHash call.ip] with ip := strncpy16 call.ip }
      .ok (table.set (ipHash call.ip) (slot.check call.currTime).1,
        (slot.check call.currTime).2)
    else .error .write -- the hash is 1024, the first index behind the table
  else .ok (table, -2)

/-! ## Runs -/

/-- A call that came back: the call and what it returned. -/
abbrev IpEvent := IpCall × ℤ

/-- One call. -/
def IpStep (table : IpTable) (e : IpEvent) (table' : IpTable) : Prop :=
  ipCheckValid table e.1 = .ok (table', e.2)

/-- The slot of a call with the IP of the call in it. -/
def IpCall.slot (call : IpCall) (table : IpTable) (h : ipHash call.ip < maxIpLimitHandle) :
    IpLimit :=
  { table[ipHash call.ip] with ip := strncpy16 call.ip }

theorem ipCheckValid_of_lt {table : IpTable} {call : IpCall} (hview : call.view = true)
    (h : ipHash call.ip < maxIpLimitHandle) :
    ipCheckValid table call
      = .ok (table.set (ipHash call.ip) ((call.slot table h).check call.currTime).1,
          ((call.slot table h).check call.currTime).2) := by
  unfold ipCheckValid
  rw [if_pos hview, dif_pos h]
  rfl

theorem ipCheckValid_of_ge {table : IpTable} {call : IpCall} (hview : call.view = true)
    (h : ¬ipHash call.ip < maxIpLimitHandle) : ipCheckValid table call = .error .write := by
  unfold ipCheckValid
  rw [if_pos hview, dif_neg h]

theorem ipCheckValid_of_not_view {table : IpTable} {call : IpCall} (hview : call.view = false) :
    ipCheckValid table call = .ok (table, -2) := by
  unfold ipCheckValid
  rw [if_neg (by simp [hview])]

/-- What a call does to a slot: the calls of the slot check it, the others leave it alone. -/
theorem slot_of_ipStep {table table' : IpTable} {call : IpCall} {flag : ℤ}
    (h : IpStep table (call, flag) table') {i : ℕ} (hi : i < maxIpLimitHandle) :
    (ipHash call.ip = i ∧ ({ table[i] with ip := strncpy16 call.ip } : IpLimit).check
        call.currTime = (table'[i], flag)) ∨
    (table'[i] = table[i] ∧ (ipHash call.ip ≠ i ∨ flag = -2)) := by
  have hcall : ipCheckValid table call = .ok (table', flag) := h
  cases hview : call.view with
  | false =>
      rw [ipCheckValid_of_not_view hview] at hcall
      cases hcall
      exact Or.inr ⟨rfl, Or.inr rfl⟩
  | true =>
      by_cases hrange : ipHash call.ip < maxIpLimitHandle
      · rw [ipCheckValid_of_lt hview hrange, Except.ok.injEq, Prod.mk.injEq] at hcall
        obtain ⟨rfl, rfl⟩ := hcall
        by_cases hsame : ipHash call.ip = i
        · subst hsame
          refine Or.inl ⟨rfl, ?_⟩
          rw [Vector.getElem_set_self]
          rfl
        · exact Or.inr ⟨Vector.getElem_set_ne _ _ hsame, Or.inl hsame⟩
      · rw [ipCheckValid_of_ge hview hrange] at hcall
        cases hcall

/-- The three ways a check ends while nobody is banned. -/
theorem IpLimit.check_cases {slot : IpLimit} (hban : slot.abBan = 0) (t : ℤ) :
    (60 ≤ t - slot.timeStart ∧
      slot.check t = ({ slot with timeStart := t, requestNum := 1 }, 0)) ∨
    (t - slot.timeStart < 60 ∧ slot.requestNum < 1000 ∧
      slot.check t = ({ slot with requestNum := slot.requestNum + 1 }, 0)) ∨
    (t - slot.timeStart < 60 ∧ 1000 ≤ slot.requestNum ∧
      slot.check t = ({ slot with
        timeStart := t, requestNum := 1, invalidNum := slot.invalidNum + 1 }, 2)) := by
  unfold check
  rw [if_neg (by simp [hban])]
  by_cases htime : t - slot.timeStart ≥ 60
  · exact Or.inl ⟨htime, if_pos htime⟩
  · rw [if_neg htime]
    by_cases hnum : slot.requestNum ≥ 1000
    · refine Or.inr (Or.inr ⟨by omega, hnum, ?_⟩)
      rw [if_pos hnum]
      -- the ban that is written is the value `ab_ban` has
      simp only
      split <;> simp [hban]
    · exact Or.inr (Or.inl ⟨by omega, by omega, if_neg hnum⟩)

/-- The counters of a slot are in range, and nobody is banned. -/
structure IpLimit.Ok (slot : IpLimit) : Prop where
  abBan : slot.abBan = 0
  requestNum : slot.requestNum ≤ 1000

theorem IpLimit.Ok.check {slot : IpLimit} (h : slot.Ok) (t : ℤ) : (slot.check t).1.Ok := by
  obtain ⟨-, hc⟩ | ⟨-, hnum, hc⟩ | ⟨-, -, hc⟩ := slot.check_cases h.abBan t <;> rw [hc]
  · exact ⟨h.abBan, by norm_num⟩
  · exact ⟨h.abBan, by show slot.requestNum + 1 ≤ 1000; omega⟩
  · exact ⟨h.abBan, by norm_num⟩

theorem IpLimit.Ok.setIp {slot : IpLimit} (h : slot.Ok) (ip : List UInt8) :
    ({ slot with ip := ip } : IpLimit).Ok := ⟨h.abBan, h.requestNum⟩

/-- In every state reached the slots are in range. -/
theorem ok_of_steps {table : IpTable} {es : List IpEvent}
    (h : Steps IpStep ipLimitInit es table) {i : ℕ} (hi : i < maxIpLimitHandle) :
    table[i].Ok := by
  refine h.invariant (I := fun table => table[i].Ok) ?_ ?_
  · intro table e table' hok hstep
    obtain ⟨-, hc⟩ | ⟨hsame, -⟩ := slot_of_ipStep hstep hi
    · have := (hok.setIp (strncpy16 e.1.ip)).check e.1.currTime
      rwa [hc] at this
    · rw [hsame]
      exact hok
  · show (ipLimitInit[i]).Ok
    rw [show ipLimitInit[i] = IpLimit.zero from Vector.getElem_replicate _]
    exact ⟨rfl, by norm_num [IpLimit.zero]⟩

/-! ## What a window of 60 seconds lets through -/

/-- The calls of the IP in the 60 seconds from `w` on that returned `flag`. -/
def returned (ip : List UInt8) (w flag : ℤ) (es : List IpEvent) : ℕ :=
  es.countP fun e => e.1.ip = ip ∧ w ≤ e.1.currTime ∧ e.1.currTime < w + 60 ∧ e.2 = flag

/-- The calls that were let through, and those that were refused. -/
def accepted (ip : List UInt8) (w : ℤ) (es : List IpEvent) : ℕ := returned ip w 0 es
@[inherit_doc accepted] def refused (ip : List UInt8) (w : ℤ) (es : List IpEvent) : ℕ :=
  returned ip w 2 es

theorem returned_append (ip : List UInt8) (w flag : ℤ) (es es' : List IpEvent) :
    returned ip w flag (es ++ es') = returned ip w flag es + returned ip w flag es' :=
  List.countP_append

theorem returned_singleton (ip : List UInt8) (w flag : ℤ) (e : IpEvent) :
    returned ip w flag [e] = if e.1.ip = ip ∧ w ≤ e.1.currTime ∧ e.1.currTime < w + 60
      ∧ e.2 = flag then 1 else 0 := by
  unfold returned
  rw [List.countP_singleton]
  simp only [decide_eq_true_eq]

/-- Before the first call of the window nothing has been let through in it. -/
theorem returned_eq_zero {ip : List UInt8} {w flag : ℤ} {es : List IpEvent}
    (h : ∀ e ∈ es, e.1.currTime < w) : returned ip w flag es = 0 := by
  unfold returned
  rw [List.countP_eq_zero]
  intro e he
  have := h e he
  simp only [decide_eq_true_eq]
  omega

/-- What the slot knows of the window from `w` on: everything let through is in its
count; or the count began inside the window, and one full count may lie before it; or
the window is over. -/
inductive WindowOk (slot : IpLimit) (ip : List UInt8) (w : ℤ) (es : List IpEvent) : Prop where
  | counted : (accepted ip w es : ℤ) ≤ slot.requestNum → WindowOk slot ip w es
  | inside : w ≤ slot.timeStart →
      (accepted ip w es : ℤ) ≤ 1000 + 999 * refused ip w es + slot.requestNum →
      WindowOk slot ip w es
  | closed (e : IpEvent) : e ∈ es → w + 60 ≤ e.1.currTime →
      (accepted ip w es : ℤ) ≤ 2000 + 999 * refused ip w es → WindowOk slot ip w es

theorem WindowOk.accepted_le {slot : IpLimit} {ip : List UInt8} {w : ℤ} {es : List IpEvent}
    (h : WindowOk slot ip w es) (hok : slot.Ok) :
    (accepted ip w es : ℤ) ≤ 2000 + 999 * refused ip w es := by
  have := hok.requestNum
  cases h with
  | counted h => omega
  | inside _ h => omega
  | closed _ _ _ h => exact h

/-- A call that neither counts in the window nor touches the slot. -/
theorem WindowOk.other {slot : IpLimit} {ip : List UInt8} {w : ℤ} {es : List IpEvent}
    (h : WindowOk slot ip w es) {e : IpEvent} (hacc : accepted ip w [e] = 0)
    (href : refused ip w [e] = 0) : WindowOk slot ip w (es ++ [e]) := by
  have hsum := returned_append ip w 0 es [e]
  have hsum' := returned_append ip w 2 es [e]
  unfold accepted at hacc
  unfold refused at href
  rw [hacc, Nat.add_zero] at hsum
  rw [href, Nat.add_zero] at hsum'
  cases h with
  | counted h => exact .counted (by unfold accepted at *; rw [hsum]; exact h)
  | inside hw h =>
      exact .inside hw (by unfold accepted refused at *; rw [hsum, hsum']; exact h)
  | closed d hd hlate h =>
      exact .closed d (List.mem_append_left _ hd) hlate
        (by unfold accepted refused at *; rw [hsum, hsum']; exact h)

/-- A call of the IP, no earlier than the ones before it. -/
theorem WindowOk.check {slot slot' : IpLimit} {ip : List UInt8} {w : ℤ} {es : List IpEvent}
    (h : WindowOk slot ip w es) (hok : slot.Ok) {e : IpEvent} (hip : e.1.ip = ip)
    (hlast : ∀ d ∈ es, d.1.currTime ≤ e.1.currTime)
    (hcheck : slot.check e.1.currTime = (slot', e.2)) : WindowOk slot' ip w (es ++ [e]) := by
  have hacc : accepted ip w (es ++ [e]) = accepted ip w es + accepted ip w [e] :=
    returned_append ip w 0 es [e]
  have href : refused ip w (es ++ [e]) = refused ip w es + refused ip w [e] :=
    returned_append ip w 2 es [e]
  have hacc₁ : accepted ip w [e] = if w ≤ e.1.currTime ∧ e.1.currTime < w + 60 ∧ e.2 = 0
      then 1 else 0 := by
    unfold accepted
    rw [returned_singleton]
    simp only [hip, true_and]
  have href₁ : refused ip w [e] = if w ≤ e.1.currTime ∧ e.1.currTime < w + 60 ∧ e.2 = 2
      then 1 else 0 := by
    unfold refused
    rw [returned_singleton]
    simp only [hip, true_and]
  -- before the window nothing counts in it, and until its end it is not closed
  have hzero : e.1.currTime < w → accepted ip w es = 0 := fun hw =>
    returned_eq_zero fun d hd => lt_of_le_of_lt (hlast d hd) hw
  have hopen : e.1.currTime < w + 60 →
      (accepted ip w es : ℤ) ≤ slot.requestNum ∨ (w ≤ slot.timeStart ∧
        (accepted ip w es : ℤ) ≤ 1000 + 999 * refused ip w es + slot.requestNum) := by
    intro hlt
    cases h with
    | counted h => exact Or.inl h
    | inside hw h => exact Or.inr ⟨hw, h⟩
    | closed d hd hlate h =>
        have := hlast d hd
        omega
  have htotal := h.accepted_le hok
  have hmem : e ∈ es ++ [e] := List.mem_append_right _ (List.mem_singleton_self e)
  have hnum := hok.requestNum
  obtain ⟨htime, hc⟩ | ⟨htime, hroom, hc⟩ | ⟨htime, hfull, hc⟩ :=
    slot.check_cases hok.abBan e.1.currTime
  · -- the window of the slot has run out: the count starts again with this call
    rw [hc, Prod.mk.injEq] at hcheck
    obtain ⟨rfl, hflag⟩ := hcheck
    by_cases hw : e.1.currTime < w
    · have := hzero hw
      refine .counted ?_
      rw [hacc, hacc₁, if_neg (by omega)]
      show ((_ : ℕ) : ℤ) ≤ 1
      omega
    · by_cases hlate : w + 60 ≤ e.1.currTime
      · refine .closed e hmem hlate ?_
        rw [hacc, href, hacc₁, href₁, if_neg (by omega), if_neg (by omega)]
        omega
      · refine .inside (show w ≤ e.1.currTime by omega) ?_
        rw [hacc, href, hacc₁, href₁, if_pos (by omega), if_neg (by omega)]
        show ((_ : ℕ) : ℤ) ≤ 1000 + 999 * ((_ : ℕ) : ℤ) + 1
        have := hopen (by omega)
        omega
  · -- the call is counted
    rw [hc, Prod.mk.injEq] at hcheck
    obtain ⟨rfl, hflag⟩ := hcheck
    by_cases hlate : w + 60 ≤ e.1.currTime
    · refine .closed e hmem hlate ?_
      rw [hacc, href, hacc₁, href₁, if_neg (by omega), if_neg (by omega)]
      omega
    · have hone : accepted ip w [e] ≤ 1 := by rw [hacc₁]; split <;> omega
      obtain hcount | ⟨hw, hcount⟩ := hopen (by omega)
      · refine .counted ?_
        rw [hacc]
        show ((_ : ℕ) : ℤ) ≤ slot.requestNum + 1
        omega
      · refine .inside hw ?_
        rw [hacc, href]
        show ((_ : ℕ) : ℤ) ≤ 1000 + 999 * ((_ : ℕ) : ℤ) + (slot.requestNum + 1)
        omega
  · -- the call is refused: the count starts again without it
    rw [hc, Prod.mk.injEq] at hcheck
    obtain ⟨rfl, hflag⟩ := hcheck
    by_cases hw : e.1.currTime < w
    · have := hzero hw
      refine .counted ?_
      rw [hacc, hacc₁, if_neg (by omega)]
      show ((_ : ℕ) : ℤ) ≤ 1
      omega
    · by_cases hlate : w + 60 ≤ e.1.currTime
      · refine .closed e hmem hlate ?_
        rw [hacc, href, hacc₁, href₁, if_neg (by omega), if_neg (by omega)]
        omega
      · refine .inside (show w ≤ e.1.currTime by omega) ?_
        rw [hacc, href, hacc₁, href₁, if_neg (by omega), if_pos (by omega)]
        show ((_ : ℕ) : ℤ) ≤ 1000 + 999 * ((_ : ℕ) : ℤ) + 1
        have := hopen (by omega)
        push_cast
        omega

/-- The times of the calls never go back. -/
def Timely (es : List IpEvent) : Prop :=
  es.Pairwise fun d e => d.1.currTime ≤ e.1.currTime

/-- No other IP of the run has the slot of this one. -/
def AloneInSlot (ip : List UInt8) (es : List IpEvent) : Prop :=
  ∀ e ∈ es, e.1.ip ≠ ip → ipHash e.1.ip ≠ ipHash ip

/-- In a run in which the IP has its slot for itself, the slot knows every window. -/
theorem windowOk_of_steps {ip : List UInt8} (hrange : ipHash ip < maxIpLimitHandle)
    {es : List IpEvent} {table : IpTable} (h : Steps IpStep ipLimitInit es table)
    (htimely : Timely es) (halone : AloneInSlot ip es) (w : ℤ) :
    WindowOk table[ipHash ip] ip w es := by
  induction h with
  | nil => exact .counted (by
      rw [show ipLimitInit[ipHash ip] = IpLimit.zero from Vector.getElem_replicate _]
      exact le_refl _)
  | @snoc table' table es e hrun hstep ih =>
      obtain ⟨htimes, -, hlast⟩ := List.pairwise_append.mp htimely
      have hbefore := ih htimes fun d hd => halone d (List.mem_append_left _ hd)
      obtain ⟨hhash, hcheck⟩ | ⟨hsame, hother⟩ := slot_of_ipStep hstep hrange
      · have hip : e.1.ip = ip := by
          by_contra hne
          exact halone e (List.mem_append_right _ (List.mem_singleton_self e)) hne hhash
        have hslot : WindowOk ({ table'[ipHash ip] with ip := strncpy16 e.1.ip }) ip w es := by
          cases hbefore with
          | counted h => exact .counted h
          | inside hw h => exact .inside hw h
          | closed d hd hlate h => exact .closed d hd hlate h
        exact hslot.check ((ok_of_steps hrun hrange).setIp _) hip
          (fun d hd => hlast d hd e (List.mem_singleton_self e)) hcheck
      · rw [hsame]
        have hnone : ∀ flag : ℤ, flag = 0 ∨ flag = 2 → returned ip w flag [e] = 0 := by
          intro flag hflag
          rw [returned_singleton, if_neg]
          rintro ⟨hip, -, -, hret⟩
          rcases hother with hhash | hview
          · exact hhash (by rw [hip])
          · omega
        exact hbefore.other (hnone 0 (Or.inl rfl)) (hnone 2 (Or.inr rfl))

/-- In every window of 60 seconds an IP that has its slot for itself is let through at most
two thousand times, and 999 times more for every call of it that was refused in the
window. -/
theorem accepted_le_of_steps {ip : List UInt8} {es : List IpEvent} {table : IpTable}
    (h : Steps IpStep ipLimitInit es table) (htimely : Timely es)
    (halone : AloneInSlot ip es) (w : ℤ) :
    accepted ip w es ≤ 2000 + 999 * refused ip w es := by
  by_cases hrange : ipHash ip < maxIpLimitHandle
  · have := (windowOk_of_steps hrange h htimely halone w).accepted_le (ok_of_steps h hrange)
    omega
  · -- a call of this IP does not come back, or not with 0
    have hnone : accepted ip w es = 0 := by
      unfold accepted returned
      rw [List.countP_eq_zero]
      clear htimely halone
      induction h with
      | nil => simp
      | @snoc table' table es e hrun hstep ih =>
          intro d hd
          rcases List.mem_append.mp hd with hd | hd
          · exact ih d hd
          · rw [List.mem_singleton] at hd
            subst hd
            simp only [decide_eq_true_eq]
            rintro ⟨hip, -, -, hflag⟩
            obtain ⟨call, flag⟩ := d
            simp only at hip hflag
            have hcall : ipCheckValid table' call = .ok (table, flag) := hstep
            cases hview : call.view with
            | false =>
                rw [ipCheckValid_of_not_view hview] at hcall
                cases hcall
                omega
            | true =>
                rw [ipCheckValid_of_ge hview (by rw [hip]; exact hrange)] at hcall
                cases hcall
    omega

/-! ### The rate a flood reaches -/

/-- A slot in its window of time `t`, with `n` requests counted. -/
structure IpLimit.At (slot : IpLimit) (t n : ℤ) : Prop where
  abBan : slot.abBan = 0
  timeStart : slot.timeStart = t
  requestNum : slot.requestNum = n

/-- A call with a slot in the table goes through. -/
theorem exists_ipStep (table : IpTable) (call : IpCall) (hview : call.view = true)
    (hrange : ipHash call.ip < maxIpLimitHandle) :
    ∃ table', IpStep table (call, ((call.slot table hrange).check call.currTime).2) table' ∧
      table'[ipHash call.ip] = ((call.slot table hrange).check call.currTime).1 :=
  ⟨_, ipCheckValid_of_lt hview hrange, Vector.getElem_set_self _⟩

section
variable {ip : List UInt8} {t : ℤ} (hrange : ipHash ip < maxIpLimitHandle)
include hrange

/-- `k` calls in one second are let through while the count has room for them. -/
theorem exists_accepts {table : IpTable} {n : ℤ} (h : table[ipHash ip].At t n) (k : ℕ)
    (hroom : n + k ≤ 1000) :
    ∃ table', Steps IpStep table (List.replicate k (⟨ip, t, true⟩, 0)) table' ∧
      table'[ipHash ip].At t (n + k) := by
  induction k with
  | zero => exact ⟨table, .nil, by simpa using h⟩
  | succ k ih =>
      obtain ⟨table₁, hrun, hat⟩ := ih (by push_cast at hroom; omega)
      obtain ⟨table₂, hstep, hslot⟩ :=
        exists_ipStep table₁ ⟨ip, t, true⟩ rfl hrange
      have hban : (IpCall.slot ⟨ip, t, true⟩ table₁ hrange).abBan = 0 := hat.abBan
      have hstart : (IpCall.slot ⟨ip, t, true⟩ table₁ hrange).timeStart = t := hat.timeStart
      have hnum : (IpCall.slot ⟨ip, t, true⟩ table₁ hrange).requestNum = n + k :=
        hat.requestNum
      obtain ⟨htime, -⟩ | ⟨-, -, hc⟩ | ⟨-, hfull, -⟩ := IpLimit.check_cases hban t
      · omega
      · rw [hc] at hstep hslot
        refine ⟨table₂, ?_, ?_⟩
        · rw [List.replicate_succ']
          exact hrun.snoc hstep
        · rw [hslot]
          exact ⟨hban, hstart, by
            show (IpCall.slot ⟨ip, t, true⟩ table₁ hrange).requestNum + 1 = n + ((k + 1 : ℕ) : ℤ)
            rw [hnum]
            push_cast
            omega⟩
      · push_cast at hroom
        omega

/-- A full count: the next call is refused, and the count starts again. -/
theorem exists_refusal {table : IpTable} (h : table[ipHash ip].At t 1000) :
    ∃ table', IpStep table (⟨ip, t, true⟩, 2) table' ∧ table'[ipHash ip].At t 1 := by
  obtain ⟨table', hstep, hslot⟩ := exists_ipStep table ⟨ip, t, true⟩ rfl hrange
  have hban : (IpCall.slot ⟨ip, t, true⟩ table hrange).abBan = 0 := h.abBan
  have hstart : (IpCall.slot ⟨ip, t, true⟩ table hrange).timeStart = t := h.timeStart
  have hnum : (IpCall.slot ⟨ip, t, true⟩ table hrange).requestNum = 1000 := h.requestNum
  obtain ⟨htime, -⟩ | ⟨-, hroom, -⟩ | ⟨-, -, hc⟩ := IpLimit.check_cases hban t
  · omega
  · omega
  · rw [hc] at hstep hslot
    exact ⟨table', hstep, by rw [hslot]; exact ⟨hban, rfl, rfl⟩⟩

/-- `r` times over, 999 calls let through and one refused, all in one second. -/
theorem exists_rounds {table : IpTable} (h : table[ipHash ip].At t 1) (r : ℕ) :
    ∃ es table', Steps IpStep table es table' ∧ table'[ipHash ip].At t 1 ∧
      (∀ e ∈ es, e.1 = ⟨ip, t, true⟩) ∧ accepted ip t es = 999 * r ∧ refused ip t es = r := by
  induction r with
  | zero => exact ⟨[], table, .nil, h, by simp, rfl, rfl⟩
  | succ r ih =>
      obtain ⟨es, table₁, hrun, hat, hsame, hacc, href⟩ := ih
      obtain ⟨table₂, hrun', hat'⟩ := exists_accepts hrange hat 999 (by norm_num)
      obtain ⟨table₃, hstep, hat''⟩ := exists_refusal hrange hat'
      refine ⟨es ++ (List.replicate 999 (⟨ip, t, true⟩, 0) ++ [(⟨ip, t, true⟩, 2)]), table₃,
        hrun.append (hrun'.snoc hstep), hat'', ?_, ?_, ?_⟩
      · intro e he
        rcases List.mem_append.mp he with he | he
        · exact hsame e he
        · rcases List.mem_append.mp he with he | he
          · rw [List.eq_of_mem_replicate he]
          · rw [List.mem_singleton.mp he]
      · have hmany : returned ip t 0 (List.replicate 999 (⟨ip, t, true⟩, 0)) = 999 := by
          unfold returned
          rw [List.countP_replicate, if_pos (by simp)]
        unfold accepted at hacc ⊢
        rw [returned_append, returned_append, hacc, hmany, returned_singleton,
          if_neg (by norm_num)]
        omega
      · have hnone : returned ip t 2 (List.replicate 999 (⟨ip, t, true⟩, 0)) = 0 := by
          unfold returned
          rw [List.countP_replicate, if_neg (by simp)]
        unfold refused at href ⊢
        rw [returned_append, returned_append, href, hnone, returned_singleton,
          if_pos (by simp), Nat.zero_add]

/-- A flood gets 999 calls through for every one refused, in a single second. -/
theorem exists_flood (ht : 60 ≤ t) (r : ℕ) :
    ∃ es table, Steps IpStep ipLimitInit es table ∧ (∀ e ∈ es, e.1 = ⟨ip, t, true⟩) ∧
      accepted ip t es = 1 + 999 * r ∧ refused ip t es = r := by
  obtain ⟨table₁, hstep, hslot⟩ :=
    exists_ipStep ipLimitInit ⟨ip, t, true⟩ rfl hrange
  have hzero : ipLimitInit[ipHash ip] = IpLimit.zero := Vector.getElem_replicate _
  have hstart : (IpCall.slot ⟨ip, t, true⟩ ipLimitInit hrange).timeStart = 0 :=
    congrArg IpLimit.timeStart hzero
  have hban : (IpCall.slot ⟨ip, t, true⟩ ipLimitInit hrange).abBan = 0 :=
    congrArg IpLimit.abBan hzero
  obtain ⟨-, hc⟩ | ⟨htime, -⟩ | ⟨htime, -⟩ := IpLimit.check_cases hban t
  · rw [hc] at hstep hslot
    have hat : table₁[ipHash ip].At t 1 := by
      rw [hslot]
      exact ⟨hban, rfl, rfl⟩
    obtain ⟨es, table, hrun, -, hsame, hacc, href⟩ := exists_rounds hrange hat r
    refine ⟨[(⟨ip, t, true⟩, 0)] ++ es, table, (Steps.nil.snoc hstep).append hrun, ?_, ?_, ?_⟩
    · intro e he
      rcases List.mem_append.mp he with he | he
      · rw [List.mem_singleton.mp he]
      · exact hsame e he
    · unfold accepted at hacc ⊢
      rw [returned_append, hacc, returned_singleton, if_pos (by simp)]
    · unfold refused at href ⊢
      rw [returned_append, href, returned_singleton, if_neg (by norm_num), Nat.zero_add]
  · omega
  · omega

end

/-- A flood of "127.0.0.1" in the second 60. -/
theorem exists_localFlood (r : ℕ) :
    ∃ es table, Steps IpStep ipLimitInit es table ∧ Timely es ∧
      AloneInSlot (bytes "127.0.0.1") es ∧ accepted (bytes "127.0.0.1") 60 es = 1 + 999 * r := by
  have hrange : ipHash (bytes "127.0.0.1") < maxIpLimitHandle := by decide +kernel
  obtain ⟨es, table, hrun, hsame, hacc, -⟩ := exists_flood hrange (t := 60) le_rfl r
  refine ⟨es, table, hrun, ?_, ?_, hacc⟩
  · refine List.pairwise_iff_forall_sublist.mpr fun {d e} hsub => ?_
    have hd : d ∈ es := hsub.subset List.mem_cons_self
    have he : e ∈ es := hsub.subset (List.mem_cons_of_mem _ List.mem_cons_self)
    rw [hsame d hd, hsame e he]
  · intro e he hne
    exact absurd (by rw [hsame e he]) hne

/-- The bound at a flood of three refusals, which reaches 2998. -/
theorem accepted_le_of_steps_flood :
    ∃ es, accepted (bytes "127.0.0.1") 60 es = 2998 ∧
      accepted (bytes "127.0.0.1") 60 es ≤ 2000 + 999 * refused (bytes "127.0.0.1") 60 es := by
  obtain ⟨es, table, hrun, htimely, halone, hacc⟩ := exists_localFlood 3
  exact ⟨es, hacc, accepted_le_of_steps hrun htimely halone 60⟩

/-- Two thousand calls in 60 seconds are no bound: the flood of a single IP. -/
theorem exists_accepted_gt :
    ¬∀ (ip : List UInt8) (es : List IpEvent) (table : IpTable),
      Steps IpStep ipLimitInit es table → Timely es → AloneInSlot ip es →
        ∀ w : ℤ, accepted ip w es ≤ 2000 := by
  intro h
  obtain ⟨es, table, hrun, htimely, halone, hacc⟩ := exists_localFlood 3
  have hle := h _ es table hrun htimely halone 60
  omega

/-! ## Other IPs -/

/-- A call as a step that answers; a call that faults answers with the fault. -/
def limiterStep (table : IpTable) (call : IpCall) : IpTable × Except Fault ℤ :=
  match ipCheckValid table call with
  | .ok (table', flag) => (table', .ok flag)
  | .error fault => (table, .error fault)

/-- The counters of a slot. -/
def IpLimit.counters (slot : IpLimit) : ℤ × ℤ × ℤ × ℤ :=
  (slot.timeStart, slot.requestNum, slot.invalidNum, slot.abBan)

/-- The counters an IP is held to account by. -/
def countersOf (table : IpTable) (ip : List UInt8) : Option (ℤ × ℤ × ℤ × ℤ) :=
  table[ipHash ip]?.map IpLimit.counters

/-- The call goes through, and later calls of `ip` return and leave in the counters what
they would have without it. -/
def Unaffected (table : IpTable) (ip : List UInt8) (call : IpCall) : Prop :=
  ∃ table' flag, ipCheckValid table call = .ok (table', flag) ∧
    ∀ calls : List IpCall, (∀ c ∈ calls, c.ip = ip) →
      (runOuts limiterStep table' calls).2 = (runOuts limiterStep table calls).2 ∧
      countersOf (runOuts limiterStep table' calls).1 ip
        = countersOf (runOuts limiterStep table calls).1 ip

/-- Calls of an IP read and write its slot alone. -/
theorem limiterStep_simulates (ip : List UInt8) :
    Simulates (fun table table' : IpTable => table[ipHash ip]? = table'[ipHash ip]?)
      (fun call : IpCall => call.ip = ip) limiterStep limiterStep := by
  intro table table' call hsame hip
  subst hip
  unfold limiterStep
  cases hview : call.view with
  | false =>
      rw [ipCheckValid_of_not_view hview, ipCheckValid_of_not_view hview]
      exact ⟨hsame, rfl⟩
  | true =>
      by_cases hrange : ipHash call.ip < maxIpLimitHandle
      · rw [Vector.getElem?_eq_getElem hrange, Vector.getElem?_eq_getElem hrange,
          Option.some.injEq] at hsame
        have hslot : call.slot table' hrange = call.slot table hrange := by
          unfold IpCall.slot
          rw [hsame]
        rw [ipCheckValid_of_lt hview hrange, ipCheckValid_of_lt hview hrange, hslot]
        refine ⟨?_, rfl⟩
        simp only [Vector.getElem?_set_self hrange]
      · rw [ipCheckValid_of_ge hview hrange, ipCheckValid_of_ge hview hrange]
        exact ⟨hsame, rfl⟩

/-- A call that leaves the slot of the IP alone does not show. -/
theorem unaffected_of_slot {table table' : IpTable} {ip : List UInt8} {call : IpCall} {flag : ℤ}
    (h : ipCheckValid table call = .ok (table', flag))
    (hsame : table'[ipHash ip]? = table[ipHash ip]?) : Unaffected table ip call := by
  refine ⟨table', flag, h, fun calls hcalls => ?_⟩
  obtain ⟨hend, houts⟩ := (limiterStep_simulates ip).runOuts hsame hcalls
  refine ⟨houts, ?_⟩
  unfold countersOf
  rw [hend]

/-- Every check of a slot in range changes its counters. -/
theorem IpLimit.counters_check {slot : IpLimit} (hban : slot.abBan = 0) (t : ℤ) :
    (slot.check t).1.counters ≠ slot.counters := by
  intro h
  obtain ⟨htime, hc⟩ | ⟨-, -, hc⟩ | ⟨-, -, hc⟩ := slot.check_cases hban t <;>
    rw [hc] at h <;>
    simp only [counters, Prod.mk.injEq] at h <;> omega

/-- A call with the slot of the IP shows at once in its counters. -/
theorem not_unaffected_of_slot {es : List IpEvent} {table : IpTable}
    (hrun : Steps IpStep ipLimitInit es table) {ip : List UInt8} (call : IpCall)
    (hview : call.view = true) (hslot : ipHash call.ip = ipHash ip) :
    ¬Unaffected table ip call := by
  rintro ⟨table', flag, hcall, hsame⟩
  by_cases hrange : ipHash call.ip < maxIpLimitHandle
  · have hcount := (hsame [] (by simp)).2
    rw [ipCheckValid_of_lt hview hrange, Except.ok.injEq, Prod.mk.injEq] at hcall
    obtain ⟨rfl, -⟩ := hcall
    have hok : (call.slot table hrange).Ok := (ok_of_steps hrun hrange).setIp _
    refine IpLimit.counters_check hok.abBan call.currTime ?_
    unfold countersOf runOuts at hcount
    rw [← hslot, Vector.getElem?_set_self hrange, Vector.getElem?_eq_getElem hrange,
      Option.map_some, Option.map_some, Option.some.injEq] at hcount
    exact hcount
  · rw [ipCheckValid_of_ge hview hrange] at hcall
    cases hcall

/-- Two IPs are limited independently exactly when their hashes are different and that of
the caller is inside the table. -/
theorem unaffected_iff {es : List IpEvent} {table : IpTable}
    (hrun : Steps IpStep ipLimitInit es table) (ip : List UInt8) (call : IpCall) :
    Unaffected table ip call ↔
      call.view = false ∨ (ipHash call.ip < maxIpLimitHandle ∧ ipHash call.ip ≠ ipHash ip) := by
  constructor
  · intro h
    cases hview : call.view with
    | false => exact Or.inl rfl
    | true =>
        have hne : ipHash call.ip ≠ ipHash ip := fun hslot =>
          not_unaffected_of_slot hrun _ hview hslot h
        refine Or.inr ⟨?_, hne⟩
        by_contra hrange
        obtain ⟨table', flag, hcall, -⟩ := h
        rw [ipCheckValid_of_ge hview hrange] at hcall
        cases hcall
  · rintro (hview | ⟨hrange, hne⟩)
    · exact unaffected_of_slot (ipCheckValid_of_not_view hview) rfl
    · cases hview : call.view with
      | false => exact unaffected_of_slot (ipCheckValid_of_not_view hview) rfl
      | true =>
          refine unaffected_of_slot (ipCheckValid_of_lt hview hrange) ?_
          exact Vector.getElem?_set_ne hrange hne

/-- Two IPs of one network that are told apart, behind a call of each. -/
theorem unaffected_neighbours : ∃ (es : List IpEvent) (table : IpTable),
    Steps IpStep ipLimitInit es table ∧
      es.map Prod.fst = [⟨bytes "10.0.0.1", 60, true⟩, ⟨bytes "10.0.0.2", 60, true⟩] ∧
      Unaffected table (bytes "10.0.0.1") ⟨bytes "10.0.0.2", 61, true⟩ := by
  obtain ⟨table₁, flag₁, hfirst⟩ : ∃ table flag,
      ipCheckValid ipLimitInit ⟨bytes "10.0.0.1", 60, true⟩ = .ok (table, flag) :=
    ⟨_, _, ipCheckValid_of_lt rfl (by decide +kernel)⟩
  obtain ⟨table₂, flag₂, hsecond⟩ : ∃ table flag,
      ipCheckValid table₁ ⟨bytes "10.0.0.2", 60, true⟩ = .ok (table, flag) :=
    ⟨_, _, ipCheckValid_of_lt rfl (by decide +kernel)⟩
  have hrun : Steps IpStep ipLimitInit [(_, flag₁), (_, flag₂)] table₂ :=
    (Steps.nil.snoc hfirst).snoc hsecond
  exact ⟨_, _, hrun, rfl, (unaffected_iff hrun _ _).mpr (Or.inr (by decide +kernel))⟩

/-- Two IPs of one network with the same hash. -/
theorem not_unaffected_collision :
    ¬∀ (es : List IpEvent) (table : IpTable), Steps IpStep ipLimitInit es table →
      ∀ (ip : List UInt8) (call : IpCall), call.ip ≠ ip → Unaffected table ip call := by
  intro h
  have hslot : ipHash (bytes "10.0.0.100") = ipHash (bytes "10.0.0.36") := by decide +kernel
  exact not_unaffected_of_slot .nil ⟨bytes "10.0.0.100", 60, true⟩ rfl hslot
    (h [] _ .nil _ _ (by decide))
