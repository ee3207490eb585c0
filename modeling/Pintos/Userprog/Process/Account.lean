import Mathlib.Data.List.Induction
import Pintos.Userprog.Process.Execute

namespace Pintos.Userprog

open Lib List Pc Bool

def Pc.watches : Pc → Option (RelRef × Int)
  | .entering (.watch r tid) | .inside _ (.watch r tid) | .leaving _ (.watch r tid) => some (r, tid)
  | _ => none

theorem Pc.watches_next (lock : ProcRef) (next : Next) :
    next.pc.watches = (leaving lock next).watches := by
  cases next with
  | done after => cases after <;> rfl
  | _ => rfl

theorem Pc.next_shape (next : Next) : (∀ tid rest, next.pc ≠ .searching tid rest) ∧
    ∀ lock next', next.pc ≠ .leaving lock next' := by
  cases next with
  | done after => cases after <;> simp [Next.pc, After.pc]
  | _ => simp [Next.pc]

theorem Pc.uses_of_watches {pc : Pc} {r : RelRef} {tid : Int} (h : pc.watches = some (r, tid)) :
    r ∈ pc.uses ∧ ∀ r', pc.stance r' = .idle := by
  unfold watches at h
  split at h <;> cases h <;> exact ⟨mem_singleton_self _, fun _ => rfl⟩

-- Whether process_execute has returned `tid` for the record and no process_wait has asked
-- for `tid` since.
def mark (r : RelRef) (tid : Int) (waiting : Bool) : Event → Bool
  | .executed (some r') tid' => waiting || (r' = r ∧ tid' = tid)
  | .executed none _ => waiting
  | .waited tid' _ => waiting && tid' ≠ tid

def unwaited (events : List Event) (r : RelRef) (tid : Int) : Bool :=
  events.foldl (mark r tid) false

theorem unwaited_append (events : List Event) (event : Event) (r : RelRef) (tid : Int) :
    unwaited (events ++ [event]) r tid = mark r tid (unwaited events r tid) event := by
  simp [unwaited]

theorem executed_of_unwaited {events : List Event} {r : RelRef} {tid : Int}
    (h : unwaited events r tid = true) : .executed (some r) tid ∈ events := by
  induction events using List.reverseRecOn with
  | nil => cases h
  | append_singleton events event ih =>
    rw [unwaited_append] at h
    rw [mem_append, mem_singleton]
    cases event with
    | waited tid' status =>
      simp only [mark, and_eq_true] at h
      exact .inl (ih h.1)
    | executed rel tid' =>
      cases rel with
      | none => exact .inl (ih h)
      | some r' =>
        simp only [mark, or_eq_true, decide_eq_true_eq] at h
        rcases h with h | ⟨rfl, rfl⟩
        · exact .inl (ih h)
        · exact .inr rfl

namespace ProcTable

variable {s s' : ProcTable} {p q c lock : ProcRef} {r : RelRef} {tid t : Int} {choice : Choice}
  {event : Event} {pc' : Pc} {m : Mutex ProcRef} {sec : Section}

structure Tids (s : ProcTable) : Prop where
  next : tidError < s.nextTid
  bound : ∀ p < s.nextProc, tidError < (s.procs p).tid ∧ (s.procs p).tid < s.nextTid
  inj : ∀ p < s.nextProc, ∀ q < s.nextProc, (s.procs p).tid = (s.procs q).tid → p = q

theorem Tids.step (h : s.Tids) (hk : s.Links) (hm : Move s p choice s') : s'.Tids := by
  have hsame : ∀ q < s.nextProc, (s'.procs q).tid = (s.procs q).tid := fun q => hm.tid hk
  have hkeep : s'.nextProc = s.nextProc → s'.nextTid = s.nextTid → s'.Tids := by
    intro hproc htid
    constructor
    · rw [htid]
      exact h.next
    · intro q hq
      rw [hproc] at hq
      rw [hsame q hq, htid]
      exact h.bound q hq
    · intro q hq u hu
      rw [hproc] at hq hu
      rw [hsame q hq, hsame u hu]
      exact h.inj q hq u hu
  rcases hm.cases with ⟨junk, _, rfl⟩ | ⟨r, hpc, rfl⟩ | hw
  · exact hkeep rfl rfl
  · have hnew : ((s.threadCreate p r).procs s.nextProc).tid = s.nextTid := by
      rw [threadCreate_procs_new hk hpc]
    have htid : (s.threadCreate p r).nextTid = s.nextTid + 1 := rfl
    have hnext := h.next
    constructor
    · omega
    · intro q hq
      rcases Nat.lt_succ_iff_lt_or_eq.mp hq with hq | rfl
      · have hbound := h.bound q hq
        rw [hsame q hq, htid]
        omega
      · rw [hnew, htid]
        omega
    · intro q hq u hu heq
      rcases Nat.lt_succ_iff_lt_or_eq.mp hq with hq | rfl <;>
        rcases Nat.lt_succ_iff_lt_or_eq.mp hu with hu | rfl
      · rw [hsame q hq, hsame u hu] at heq
        exact h.inj q hq u hu heq
      · rw [hsame q hq, hnew] at heq
        have hbound := h.bound q hq
        omega
      · rw [hsame u hu, hnew] at heq
        have hbound := h.bound u hu
        omega
      · rfl
  · exact hkeep hw.nextProc hw.nextTid

theorem tids_of_reachable (h : system.Reachable s) : s.Tids := by
  apply h.invariant
  · rintro s rfl
    have hzero : ∀ p < boot.nextProc, p = 0 := fun p hp => Nat.lt_one_iff.mp hp
    refine ⟨by decide, fun p hp => ?_, fun p hp q hq _ => ?_⟩
    · rw [hzero p hp]
      decide
    · rw [hzero p hp, hzero q hq]
  · exact fun s a s' hr ih hs => ih.step (linked_of_reachable hr).links (exec_move hs)

theorem eq_of_cId (hlink : s.Linked) (hsound : s.Sound) (htids : s.Tids) {r r' : RelRef}
    (hr : r < s.nextRel) (hr' : r' < s.nextRel) (hst : (s.bond r).stance = .idle)
    (hst' : (s.bond r').stance = .idle) (hload : s.loaded r ≠ some false)
    (heq : (s.rels r).cId = (s.rels r').cId) : r = r' := by
  obtain ⟨_, hc, _⟩ := (hsound r hr).child_of_idle hst
  obtain ⟨_, hc', _⟩ := (hsound r' hr').child_of_idle hst'
  obtain ⟨c, hchild⟩ := child_of_bond (s := s) (r := r) (by simp [hc])
  obtain ⟨c', hchild'⟩ := child_of_bond (s := s) (r := r') (by simp [hc'])
  have hid := (hsound r hr).cId (by simp [hc]) (by rw [hst]; rfl)
  have hid' := (hsound r' hr').cId (by simp [hc']) (by rw [hst']; rfl)
  rw [s.bond_tid hchild] at hid
  rw [s.bond_tid hchild'] at hid'
  have htid : (s.rels r).cId = (s.procs c).tid := by
    rcases hid with hid | ⟨hfalse, _⟩
    · exact hid
    · exact absurd hfalse hload
  have hlt := hlink.links.child_lt hchild
  have hpos := (htids.bound c hlt).1
  have htid' : (s.rels r').cId = (s.procs c').tid := by
    rcases hid' with hid' | ⟨_, _, hid'⟩
    · exact hid'
    · have herr : (s.rels r').cId = tidError := hid'
      omega
  have hsame : c = c' :=
    htids.inj c hlt c' (hlink.links.child_lt hchild') (htid.symm.trans (heq.trans htid'))
  exact hlink.links.child_inj hchild (hsame ▸ (hlink.links.child c' r').mpr hchild')

def Counts (s : ProcTable) (p : ProcRef) (r : RelRef) (tid : Int) : Prop :=
  r ∈ (s.procs p).childrenInR ∧ ((s.procs p).pc.stance r).starts = false ∧ (s.rels r).cId = tid

def Balanced (s : ProcTable) (p : ProcRef) : Prop :=
  (s.procs p).pc.phase ≠ .cut → ∀ r < s.nextRel, ∀ tid, s.loaded r ≠ some false →
    (unwaited (s.history p) r tid = true ↔ s.Counts p r tid)

theorem Move.cId (hlink : s.Linked) (hsound : s.Sound) (hm : Move s p choice s')
    (hmem : r ∈ (s.procs q).childrenInR) (hst : ((s.procs q).pc.stance r).starts = false) :
    (s'.rels r).cId = (s.rels r).cId := by
  obtain ⟨hr, howner⟩ := hlink.links.children q r hmem
  rcases hm.follows hlink hr with hsame | ⟨label, hb, _⟩
  · have hrel : (s'.bond r).rel = (s.bond r).rel := by rw [hsame]
    exact congrArg Relation.cId hrel
  · exact (hsound r hr).cId_step hb (by rw [s.bond_stance howner rfl]; exact hst)

theorem Move.loaded_ne (hlink : s.Linked) (hsound : s.Sound) (hm : Move s p choice s')
    (hr : r < s.nextRel) (hl : s'.loaded r ≠ some false) : s.loaded r ≠ some false :=
  fun hfalse => hl (hm.loaded hlink hsound hr hfalse)

theorem unwaited_lt {strict : Bool} (htrue : ∀ event ∈ s.history p, Truthful strict s event)
    (h : unwaited (s.history p) r tid = true) : r < s.nextRel :=
  (htrue _ (executed_of_unwaited h)).1

theorem Balanced.carry (h : s.Balanced q) (hlink : s.Linked) (hsound : s.Sound)
    (htrue : ∀ event ∈ s.history q, Truthful false s event) (hm : Move s p choice s')
    (hist : ∀ r tid, unwaited (s'.history q) r tid = unwaited (s.history q) r tid)
    (hphase : (s'.procs q).pc.phase ≠ .cut → (s.procs q).pc.phase ≠ .cut)
    (hold : ∀ r < s.nextRel, (r ∈ (s'.procs q).childrenInR ↔ r ∈ (s.procs q).childrenInR) ∧
      ((s'.procs q).pc.stance r).starts = ((s.procs q).pc.stance r).starts)
    (hnew : ∀ r, s.nextRel ≤ r → r ∈ (s'.procs q).childrenInR →
      ((s'.procs q).pc.stance r).starts = true) : s'.Balanced q := by
  intro hcut r hr tid hl
  rw [hist]
  by_cases hlt : r < s.nextRel
  · obtain ⟨hmem, hst⟩ := hold r hlt
    rw [h (hphase hcut) r hlt tid (hm.loaded_ne hlink hsound hlt hl), Counts, Counts, hmem, hst]
    refine and_congr_right fun hin => and_congr_right fun hidle => ?_
    rw [hm.cId hlink hsound hin hidle]
  · refine iff_of_false (fun hun => hlt (unwaited_lt htrue hun)) (fun hcounts => ?_)
    have hstarts := hnew r (not_lt.mp hlt) hcounts.1
    rw [hcounts.2.1] at hstarts
    cases hstarts

theorem Balanced.elsewhere (h : s.Balanced q) (hlink : s.Linked) (hsound : s.Sound)
    (htrue : ∀ event ∈ s.history q, Truthful false s event) (hm : Move s p choice s')
    (hq : q ≠ p) : s'.Balanced q := by
  have hist := hm.history_ne hlink.links hq
  rcases hm.elsewhere hlink.links hq with hsame | ⟨rfl, r, hproc⟩
  · refine h.carry hlink hsound htrue hm (fun _ _ => by rw [hist]) (by rw [hsame]; exact id)
      (fun r _ => by rw [hsame]; exact ⟨.rfl, rfl⟩) (fun r hle hmem => ?_)
    rw [hsame] at hmem
    exact absurd (hlink.links.children q r hmem).1 (not_lt.mpr hle)
  · have habsent := hlink.links.absent s.nextProc le_rfl
    refine h.carry hlink hsound htrue hm (fun _ _ => by rw [hist]) (fun _ => ?_)
      (fun r _ => ?_) (fun r _ hmem => ?_)
    · rw [habsent.1]
      decide
    · rw [hproc, habsent.1, habsent.2.2]
      exact ⟨.rfl, rfl⟩
    · rw [hproc] at hmem
      cases hmem

theorem Balanced.goto (h : s.Balanced p) (hlink : s.Linked) (hsound : s.Sound)
    (htrue : ∀ event ∈ s.history p, Truthful false s event) (hm : Move s p choice s')
    (hproc : s'.procs p = { s.procs p with pc := pc' })
    (hist : s'.history p = s.history p ∨ ∃ tid, s'.history p = s.history p ++ [.executed none tid])
    (hphase : pc'.phase ≠ .cut → (s.procs p).pc.phase ≠ .cut)
    (hst : ∀ r, (pc'.stance r).starts = ((s.procs p).pc.stance r).starts) : s'.Balanced p := by
  have hmarks : ∀ r tid, unwaited (s'.history p) r tid = unwaited (s.history p) r tid := by
    intro r tid
    rcases hist with hsame | ⟨_, hnone⟩
    · rw [hsame]
    · rw [hnone, unwaited_append]
      rfl
  refine h.carry hlink hsound htrue hm hmarks (by rw [hproc]; exact hphase)
    (fun r _ => by rw [hproc]; exact ⟨.rfl, hst r⟩) (fun r hle hmem => ?_)
  rw [hproc] at hmem
  exact absurd (hlink.links.children p r hmem).1 (not_lt.mpr hle)

theorem Jump.starts {pc : Pc} (hj : Jump s p choice pc pc') (r : RelRef) :
    (pc'.stance r).starts = (pc.stance r).starts := by
  rcases hj.stance r with hsame | ⟨_, rfl, rfl⟩
  · rw [hsame]
  · simp [Pc.stance, Stance.starts]

structure Seeks (s : ProcTable) (p : ProcRef) : Prop where
  passed : ∀ tid rest, (s.procs p).pc = .searching tid rest →
    ∃ before, (s.procs p).childrenInR = before ++ rest ∧ ∀ r ∈ before, (s.rels r).cId ≠ tid
  found : ∀ r tid, (s.procs p).pc.watches = some (r, tid) → (s.rels r).cId = tid
  loops : ∀ lock r tid, (s.procs p).pc = .leaving lock (.watch r tid) → s.loaded r = some true

section

variable (h : s.Balanced p)
include h

theorem jump_balanced (hseeks : s.Seeks p) (hlink : s.Linked) (hsound : s.Sound)
    (htrue : ∀ event ∈ s.history p, Truthful false s event)
    (hj : Jump s p choice (s.procs p).pc pc') : (s.goto p pc').Balanced p := by
  have hm := Move.jump hj
  have hproc := goto_procs_self s p pc'
  have hphase : pc'.phase ≠ .cut → (s.procs p).pc.phase ≠ .cut := hj.phase ▸ id
  have hst := hj.starts
  by_cases hfound : ∃ tid, (s.procs p).pc = .searching tid []
  · obtain ⟨tid, hpc⟩ := hfound
    have hpc' : pc' = .returning (.waited tid (-1)) := by
      rw [hpc] at hj
      cases hj
      rfl
    subst hpc'
    obtain ⟨before, hlist, hne⟩ := hseeks.passed tid [] hpc
    rw [append_nil] at hlist
    have hist : (s.goto p (.returning (.waited tid (-1)))).history p =
        s.history p ++ [.waited tid (-1)] :=
      history_append rfl (by rw [hpc]; rfl) (by rw [hproc]; rfl)
    intro hcut r hr tid' hl
    have hold := h (by simp [hpc, phase]) r hr tid' hl
    have hcounts : (s.goto p (.returning (.waited tid (-1)))).Counts p r tid' ↔
        s.Counts p r tid' := by
      rw [Counts, Counts, hproc, hpc]
      exact .rfl
    rw [hist, unwaited_append, hcounts, ← hold]
    simp only [mark, and_eq_true, decide_eq_true_eq, and_iff_left_iff_imp]
    intro hun
    have hc := hold.mp hun
    exact fun heq => hne r (hlist ▸ hc.1) (hc.2.2.trans heq.symm)
  · refine h.goto hlink hsound htrue hm hproc ?_ hphase hst
    rcases hj.extends with hsame | ⟨event, hrep, hext⟩
    · exact .inl hsame
    · cases hrep with
      | noPage => exact .inr ⟨_, hext⟩
      | notFound tid hpc => exact absurd ⟨tid, hpc⟩ hfound
      | failed _ _ _ hpc | started _ _ _ hpc | reaped _ _ _ hpc =>
        rw [hpc] at hj
        cases hj

theorem settle_balanced {q : ProcRef}
    (hpc : (s.procs p).pc = .inside lock (.poll r t)) (hm : r ∈ (s.procs p).childrenInR)
    (hproc : s'.procs p = { s.procs p with
      pc := .leaving q (.done (.returning (.executed (some r) (s.rels r).cId))) })
    (hlog : s'.log p = s.log p) (hrels : s'.rels = s.rels) (hloaded : s'.loaded = s.loaded)
    (hnext : s'.nextRel = s.nextRel) : s'.Balanced p := by
  intro hcut r' hr' tid hl
  rw [hnext] at hr'
  rw [hloaded] at hl
  have hold := h (by simp [hpc, phase]) r' hr' tid hl
  have hist : s'.history p = s.history p ++ [.executed (some r) (s.rels r).cId] :=
    history_append hlog (by rw [hpc]; rfl) (by rw [hproc]; rfl)
  rw [hist, unwaited_append]
  simp only [mark, or_eq_true, decide_eq_true_eq]
  rw [hold, Counts, Counts, hproc, hrels, hpc]
  by_cases hr : r = r'
  · subst hr
    simp [Pc.stance, Stance.starts, hm]
  · simp [Pc.stance, Stance.starts, hr]

theorem reap_balanced {q : ProcRef} (hlink : s.Linked) (hsound : s.Sound)
    (htids : s.Tids) (hpc : (s.procs p).pc = .inside lock (.watch r t))
    (hm : r ∈ (s.procs p).childrenInR) (hid : (s.rels r).cId = t)
    (hproc : s'.procs p = { s.procs p with
      pc := .leaving q (.free r (.returning (.waited t (s.rels r).wStatus)))
      childrenInR := (s.procs p).childrenInR.erase r }) (hlog : s'.log p = s.log p)
    (hrels : s'.rels = s.rels) (hloaded : s'.loaded = s.loaded) (hnext : s'.nextRel = s.nextRel) :
    s'.Balanced p := by
  intro hcut r' hr' tid hl
  rw [hnext] at hr'
  rw [hloaded] at hl
  have hold := h (by simp [hpc, phase]) r' hr' tid hl
  have hist : s'.history p = s.history p ++ [.waited t (s.rels r).wStatus] :=
    history_append hlog (by rw [hpc]; rfl) (by rw [hproc]; rfl)
  have hidle : ∀ u ∈ (s.procs p).childrenInR, u < s.nextRel ∧ (s.bond u).stance = .idle := by
    intro u hu
    obtain ⟨hlt, howner⟩ := hlink.links.children p u hu
    exact ⟨hlt, s.bond_stance howner hpc⟩
  rw [hist, unwaited_append]
  simp only [mark, and_eq_true, decide_eq_true_eq]
  rw [hold, Counts, Counts, hproc, hrels, hpc]
  by_cases hr : r' = r
  · subst hr
    have hgone := (hlink.links.nodup p).not_mem_erase (a := r')
    refine iff_of_false (fun hboth => ?_) (fun hin => hgone hin.1)
    exact hboth.2 (hid.symm.trans hboth.1.2.2)
  · have hother : r' ∈ (s.procs p).childrenInR → (s.rels r').cId = tid → t ≠ tid := by
      intro hmem hid' heq
      obtain ⟨hlt, hst⟩ := hidle r' hmem
      obtain ⟨hlt0, hst0⟩ := hidle r hm
      exact hr (eq_of_cId hlink hsound htids hlt hlt0 hst hst0 hl
        (hid'.trans (heq.symm.trans hid.symm)))
    have hstance : ((leaving q (.free r (.returning
        (.waited t (s.rels r).wStatus)))).stance r').starts = false := by
      simp [Pc.stance, Ne.symm hr, Stance.starts]
    rw [hstance, mem_erase_of_ne hr]
    constructor
    · exact fun hboth => hboth.1
    · exact fun hin => ⟨hin, hother hin.1 hin.2.2⟩

theorem poll_balanced {q : ProcRef} (hlink : s.Linked)
    (hsound : s.Sound) (htrue : ∀ event ∈ s.history p, Truthful false s event)
    (hpc : (s.procs p).pc = .inside lock (.poll r t))
    (hm : Move s p choice (s.crossed p q r (.poll r t) m)) :
    (s.crossed p q r (.poll r t) m).Balanced p := by
  unfold crossed at *
  have hpoll : (s.procs p).pc.stance r = .polling t := by rw [hpc]; exact if_pos rfl
  obtain ⟨hr, howner, _⟩ := hlink.links.owner_of_polling hpoll
  have hstance := (s.bond_stance howner rfl).trans hpoll
  have hmem := (hlink.links.owner_of_uses hpc (mem_singleton_self r)).2
  by_cases hx : (s.rels r).cStatus = .loading
  · have hcrit : s.critical p r (s.rels r) (.poll r t) = (s, .poll r t) := if_pos hx
    rw [hcrit] at hm ⊢
    have hproc := goto_procs_self (s.setLock q m) p (.leaving q (.poll r t))
    exact h.goto hlink hsound htrue hm hproc (.inl (history_eq rfl (by rw [hproc, hpc]; rfl)))
      (by simp [hpc, phase]) (fun r' => by rw [hpc]; rfl)
  · have hcrit : s.critical p r (s.rels r) (.poll r t) =
        (s, .done (.returning (.executed (some r) (s.rels r).cId))) := by
      by_cases hexit : (s.rels r).cStatus = .exited
      · simp [critical, hexit]
      · obtain ⟨_, ⟨_, ht, hid⟩ | ⟨_, hexit'⟩⟩ := (hsound r hr).of_polling hstance hx
        · have hcId : (s.rels r).cId = t := hid.trans ht.symm
          simp [critical, hx, hexit, hcId]
        · exact absurd hexit' hexit
    rw [hcrit]
    exact settle_balanced h hpc hmem (goto_procs_self ..) rfl rfl rfl rfl

theorem watch_balanced {q : ProcRef} (hseeks : s.Seeks p)
    (hlink : s.Linked) (hsound : s.Sound) (htids : s.Tids)
    (htrue : ∀ event ∈ s.history p, Truthful false s event)
    (hpc : (s.procs p).pc = .inside lock (.watch r t))
    (hm : Move s p choice (s.crossed p q r (.watch r t) m)) :
    (s.crossed p q r (.watch r t) m).Balanced p := by
  have hproc := (s.crossed_rewrites p q r (.watch r t) m).procs_self
  unfold crossed at *
  have hmem := (hlink.links.owner_of_uses hpc (mem_singleton_self r)).2
  by_cases hx : (s.rels r).cStatus = .running
  · have hcrit : s.critical p r (s.rels r) (.watch r t) = (s, .watch r t) := if_pos hx
    rw [hcrit] at hm ⊢
    have hself := goto_procs_self (s.setLock q m) p (.leaving q (.watch r t))
    exact h.goto hlink hsound htrue hm hself (.inl (history_eq rfl (by rw [hself, hpc]; rfl)))
      (by simp [hpc, phase]) (fun r' => by rw [hpc]; rfl)
  · have hcrit : s.critical p r (s.rels r) (.watch r t) =
        (s.unlink p r, .free r (.returning (.waited t (s.rels r).wStatus))) := if_neg hx
    have hleft : s.leftover p r (s.rels r) (.watch r t) = (s.procs p).childrenInR.erase r :=
      if_neg hx
    rw [hleft, hcrit] at hproc
    rw [hcrit]
    exact reap_balanced h hlink hsound htids hpc hmem (hseeks.found r t (by rw [hpc]; rfl)) hproc
      rfl rfl rfl rfl

theorem critical_balanced {q : ProcRef}
    (hseeks : s.Seeks p) (hlink : s.Linked) (hsound : s.Sound) (htids : s.Tids)
    (htrue : ∀ event ∈ s.history p, Truthful false s event)
    (hpc : (s.procs p).pc = .inside lock sec) (hr : relOf (s.procs p) sec = some r)
    (hm : Move s p choice (s.crossed p q r sec m)) : (s.crossed p q r sec m).Balanced p := by
  have hproc := (s.crossed_rewrites p q r sec m).procs_self
  have hlog : (s.critical p r (s.rels r) sec).1.log p = s.log p := by rw [critical_rest]
  cases sec with
  | poll _ t =>
    cases hr
    exact poll_balanced h hlink hsound htrue hpc hm
  | watch _ t =>
    cases hr
    exact watch_balanced h hseeks hlink hsound htids htrue hpc hm
  | orphan _ =>
    intro hcut
    refine absurd ?_ hcut
    rw [hproc]
    simp only [critical]
    split_ifs <;> rfl
  | announce success =>
    refine h.goto hlink hsound htrue hm hproc (.inl (history_eq hlog ?_))
      (by simp [hpc, phase]) (fun r' => ?_)
    · rw [hproc, hpc]
      cases success <;> rfl
    · rw [hpc]
      cases success <;> rfl
  | cutTies =>
    refine h.goto hlink hsound htrue hm hproc (.inl (history_eq hlog ?_))
      (by simp [hpc, phase]) (fun r' => ?_)
    · rw [hproc, hpc]
      simp only [critical]
      split_ifs <;> rfl
    · rw [hpc]
      simp only [critical]
      split_ifs <;> rfl

end

theorem Balanced.step (h : s.Balanced q) (hseeks : s.Seeks q) (hlink : s.Linked)
    (hsound : s.Sound) (htids : s.Tids)
    (htrue : ∀ event ∈ s.history q, Truthful false s event) (hm : Move s p choice s') :
    s'.Balanced q := by
  by_cases hq : q = p
  swap
  · exact h.elsewhere hlink hsound htrue hm hq
  subst hq
  have hmove := hm
  cases hm with
  | jump hj => exact jump_balanced h hseeks hlink hsound htrue hj
  | allocate junk hpc =>
    have hproc := (s.allocate_writes q junk).procs_self
    have hist : (s.allocate q junk).history q = s.history q :=
      history_eq rfl (by rw [hproc, hpc]; rfl)
    refine h.carry hlink hsound htrue hmove (fun _ _ => by rw [hist]) (fun _ => ?_)
      (fun r hr => ?_) (fun r hle hmem => ?_)
    · simp [hpc, phase]
    · have hne : r ≠ s.nextRel := hr.ne
      rw [hproc, hpc]
      simp [hne, Ne.symm hne, Pc.stance]
    · rw [hproc] at hmem ⊢
      rcases mem_append.mp hmem with hmem | hmem
      · exact absurd (hlink.links.children q r hmem).1 (not_lt.mpr hle)
      · rw [mem_singleton.mp hmem]
        simp [Pc.stance, Stance.starts]
  | create r hpc =>
    have hproc := threadCreate_procs_self hlink.links hpc
    refine h.goto hlink hsound htrue hmove hproc
      (.inl (history_eq rfl (by rw [hproc, hpc]; rfl))) (by simp [hpc, phase]) (fun r' => ?_)
    rw [hpc]
    by_cases hr : r = r' <;> simp [Pc.stance, hr, Stance.starts]
  | exit _ _ hpc | die _ hpc | load _ _ hpc =>
    exact h.goto hlink hsound htrue hmove (goto_procs_self ..)
      (.inl (history_eq rfl (by rw [goto_procs_self, hpc]; rfl))) (by simp [hpc, phase])
      (fun r' => by rw [hpc]; rfl)
  | assign r tid hpc =>
    refine h.goto hlink hsound htrue hmove (goto_procs_self ..)
      (.inl (history_eq rfl (by rw [goto_procs_self, hpc]; rfl))) (by simp [hpc, phase])
      (fun r' => ?_)
    rw [hpc]
    by_cases hr : r = r' <;> simp [Pc.stance, hr, Stance.starts]
  | acquire sec r hpc =>
    obtain ⟨_, hphase⟩ := acquire_eq (s.rels r).statusLock sec r
    refine h.goto hlink hsound htrue hmove (goto_procs_self ..)
      (.inl (history_eq rfl (by rw [goto_procs_self, hpc]; rfl))) (by rw [hpc, hphase]; exact id)
      (fun r' => ?_)
    rw [hpc, (acquire_eq (s.rels r).statusLock sec r').1]
  | critical lock sec r hpc hr =>
    exact critical_balanced h hseeks hlink hsound htids htrue hpc hr hmove
  | raise lock next hpc =>
    refine h.goto hlink hsound htrue hmove (goto_procs_self ..)
      (.inl (history_eq rfl (by rw [goto_procs_self, hpc, pending_next lock])))
      (fun hcut => ?_) (fun r' => by rw [hpc, stance_next lock])
    by_cases hnext : next = .done .untied
    · subst hnext
      exact absurd rfl hcut
    · rw [hpc, ← phase_next lock next hnext]
      exact hcut
  | free r after hpc =>
    refine h.goto hlink hsound htrue hmove (goto_procs_self ..)
      (.inl (history_eq rfl (by rw [goto_procs_self, hpc]; cases after <;> rfl)))
      (fun hcut => ?_) (fun r' => ?_)
    · rw [hpc]
      cases after <;> simp_all [phase, After.pc]
    · rw [hpc]
      by_cases hr : r = r' <;> cases after <;> simp [Pc.stance, After.pc, hr, Stance.starts]
  | «return» event hpc =>
    exact h.goto hlink hsound htrue hmove (goto_procs_self ..) (.inl (return_history hpc))
      (by simp [hpc, phase]) (fun r' => by rw [hpc]; rfl)

theorem Seeks.idle (hs : ∀ tid rest, (s.procs p).pc ≠ .searching tid rest)
    (hw : (s.procs p).pc.watches = none) : s.Seeks p where
  passed tid rest hpc := absurd hpc (hs tid rest)
  found r tid hpc := by
    rw [hw] at hpc
    cases hpc
  loops lock r tid hpc := by
    rw [hpc] at hw
    cases hw

theorem Seeks.keep (h : s.Seeks p) (hs : ∀ tid rest, (s'.procs p).pc ≠ .searching tid rest)
    (hl : ∀ lock r tid, (s'.procs p).pc ≠ .leaving lock (.watch r tid))
    (hw : (s'.procs p).pc.watches = (s.procs p).pc.watches) (hrels : s'.rels = s.rels) :
    s'.Seeks p where
  passed tid rest hpc := absurd hpc (hs tid rest)
  found r tid hpc := by
    rw [hrels]
    exact h.found r tid (hw ▸ hpc)
  loops lock r tid hpc := absurd hpc (hl lock r tid)

theorem Seeks.elsewhere (h : s.Seeks q) (hlink : s.Linked) (hsound : s.Sound)
    (hm : Move s p choice s') (hq : q ≠ p) : s'.Seeks q := by
  rcases hm.elsewhere hlink.links hq with hsame | ⟨_, r, hproc⟩
  swap
  · exact .idle (by simp [hproc]) (by rw [hproc]; rfl)
  constructor
  · intro tid rest hpc
    rw [hsame] at hpc ⊢
    obtain ⟨before, hlist, hne⟩ := h.passed tid rest hpc
    refine ⟨before, hlist, fun r hr => ?_⟩
    have hmem : r ∈ (s.procs q).childrenInR := hlist ▸ mem_append_left _ hr
    rw [hm.cId hlink hsound hmem (by rw [hpc]; rfl)]
    exact hne r hr
  · intro r tid hpc
    rw [hsame] at hpc
    obtain ⟨huses, hidle⟩ := uses_of_watches hpc
    rw [hm.cId hlink hsound (hlink.links.uses q r huses) (by rw [hidle]; rfl)]
    exact h.found r tid hpc
  · intro lock r tid hpc
    rw [hsame] at hpc
    have hmem := hlink.links.uses q r (by rw [hpc]; exact mem_singleton_self r)
    exact hm.loaded hlink hsound (hlink.links.children q r hmem).1 (h.loops lock r tid hpc)

theorem jump_seeks (h : s.Seeks p) (hj : Jump s p choice (s.procs p).pc pc') :
    (s.goto p pc').Seeks p := by
  have hproc := goto_procs_self s p pc'
  generalize hpc : (s.procs p).pc = pc at hj
  cases hj with
  | wait tid =>
    refine ⟨fun tid' rest hpc' => ?_, fun r tid' hw => ?_, fun lock r tid' hl => ?_⟩
    · rw [hproc] at hpc' ⊢
      cases hpc'
      exact ⟨[], rfl, fun r hr => absurd hr not_mem_nil⟩
    · rw [hproc] at hw
      cases hw
    · rw [hproc] at hl
      cases hl
  | pass r rest hf hid =>
    rename_i tid
    obtain ⟨before, hlist, hne⟩ := h.passed tid (r :: rest) hpc
    refine ⟨fun tid' rest' hpc' => ?_, fun r tid' hw => ?_, fun lock r tid' hl => ?_⟩
    · rw [hproc] at hpc' ⊢
      cases hpc'
      refine ⟨before ++ [r], by simpa using hlist, fun u hu => ?_⟩
      rcases mem_append.mp hu with hu | hu
      · exact hne u hu
      · rw [mem_singleton.mp hu]
        exact hid
    · rw [hproc] at hw
      cases hw
    · rw [hproc] at hl
      cases hl
  | found r rest hf =>
    refine ⟨fun tid rest hpc' => ?_, fun r tid hw => ?_, fun lock r tid hl => ?_⟩
    · rw [hproc] at hpc'
      cases hpc'
    · rw [hproc] at hw
      cases hw
      rfl
    · rw [hproc] at hl
      cases hl
  | _ => exact .idle (by simp) (by rw [hproc]; rfl)

theorem critical_seeks {q : ProcRef} (h : s.Seeks p) (hlink : s.Linked) (hsound : s.Sound)
    (hpc : (s.procs p).pc = .inside lock sec) (hr : relOf (s.procs p) sec = some r) :
    (s.crossed p q r sec m).Seeks p := by
  have hself := s.crossed_pc p q r sec m
  unfold crossed at *
  by_cases hloop : (∃ tid, sec = .watch r tid) ∧ (s.rels r).cStatus = .running
  · obtain ⟨⟨tid, rfl⟩, hx⟩ := hloop
    have hcrit : s.critical p r (s.rels r) (.watch r tid) = (s, .watch r tid) := if_pos hx
    rw [hcrit] at hself ⊢
    refine ⟨fun tid' rest hpc' => ?_, fun r' tid' hw => ?_, fun lock' r' tid' hl => ?_⟩
    · rw [hself] at hpc'
      cases hpc'
    · rw [hself] at hw
      cases hw
      exact h.found r tid (by rw [hpc]; rfl)
    · rw [hself] at hl
      cases hl
      have hmem := hlink.links.uses p r (by rw [hpc]; exact mem_singleton_self r)
      obtain ⟨hlt, howner⟩ := hlink.links.children p r hmem
      exact (hsound r hlt).loaded_of_running hx
  · refine .idle (by simp) ?_
    rw [hself]
    cases sec with
    | announce success => cases success <;> rfl
    | watch r' tid =>
      cases hr
      have hx : (s.rels r).cStatus ≠ .running := fun hx => hloop ⟨⟨tid, rfl⟩, hx⟩
      simp only [critical, if_neg hx]
      rfl
    | poll _ _ | cutTies | orphan _ =>
      simp only [critical]
      split_ifs <;> rfl

theorem Seeks.step (h : s.Seeks q) (hlink : s.Linked) (hsound : s.Sound)
    (hm : Move s p choice s') : s'.Seeks q := by
  by_cases hq : q = p
  swap
  · exact h.elsewhere hlink hsound hm hq
  subst hq
  cases hm with
  | jump hj => exact jump_seeks h hj
  | allocate junk =>
    have hproc := (s.allocate_writes q junk).procs_self
    exact .idle (by simp [hproc]) (by rw [hproc]; rfl)
  | create r hpc =>
    have hproc := threadCreate_procs_self hlink.links hpc
    exact .idle (by simp [hproc]) (by rw [hproc]; rfl)
  | exit | die | assign | load | «return» =>
    exact .idle (by simp [goto_procs_self]) (by rw [goto_procs_self]; rfl)
  | free r after =>
    refine .idle (fun _ _ => ?_) ?_ <;> rw [goto_procs_self] <;> cases after <;> simp [After.pc]
    · rfl
    · rfl
    · rfl
  | acquire sec r hpc =>
    refine h.keep (by simp) (by simp) ?_ rfl
    rw [goto_procs_self, hpc]
    cases sec <;> rfl
  | critical lock sec r hpc hr => exact critical_seeks h hlink hsound hpc hr
  | raise lock next hpc =>
    have hshape := next_shape next
    refine h.keep (fun tid rest => ?_) (fun lock r tid => ?_) ?_ rfl
    · rw [goto_procs_self]
      exact hshape.1 tid rest
    · rw [goto_procs_self]
      exact hshape.2 lock (.watch r tid)
    · rw [goto_procs_self, hpc]
      exact watches_next lock next

theorem seeks_of_reachable (h : system.Reachable s) : ∀ p, s.Seeks p := by
  apply h.invariant
  · rintro s rfl p
    refine .idle (fun tid rest => ?_) ?_ <;> by_cases hp : p = 0 <;> simp [boot, hp, watches]
  · exact fun s a s' hr ih hs p =>
      (ih p).step (linked_of_reachable hr) (sound_of_reachable hr) (exec_move hs)

theorem known_of_reachable (h : system.Reachable s) :
    ∀ p, ∀ event ∈ s.history p, Truthful false s event :=
  truthful_of_reachable false nofun h

theorem balanced_of_reachable (h : system.Reachable s) : ∀ p, s.Balanced p := by
  apply h.invariant
  · rintro s rfl p _ r hr
    exact absurd hr (Nat.not_lt_zero r)
  · exact fun s a s' hr ih hs p => (ih p).step (seeks_of_reachable hr p) (linked_of_reachable hr)
      (sound_of_reachable hr) (tids_of_reachable hr) (known_of_reachable hr p) (exec_move hs)

theorem Linked.section_lock (h : s.Linked) (hpc : (s.procs p).pc = .inside lock sec)
    (hr : relOf (s.procs p) sec = some r) : (s.rels r).statusLock = lock := by
  cases sec with
  | announce _ | cutTies =>
    obtain ⟨r', hp, hlock⟩ := h.housed.borrows p lock (by rw [hpc]; rfl)
    obtain rfl := Option.some.inj (hr.symm.trans hp)
    exact hlock
  | poll _ _ | watch _ _ | orphan _ =>
    cases hr
    have hown := h.housed.owns p lock (by rw [hpc]; rfl)
    rw [hown]
    exact (h.links.owner_of_uses hpc (mem_singleton_self r)).1

-- A record is in the list of one parent at most and belongs to one child at most, no two
-- processes have the same tid, and one process at a time is in a section that uses the record.
theorem relations_exclusive (h : system.Reachable s) :
    (∀ p q r, r ∈ (s.procs p).childrenInR → r ∈ (s.procs q).childrenInR → p = q) ∧
    (∀ c c' r, (s.procs c).parentInR = some r → (s.procs c').parentInR = some r → c = c') ∧
    (∀ p < s.nextProc, ∀ q < s.nextProc, (s.procs p).tid = (s.procs q).tid → p = q) ∧
    ∀ p q lock lock' sec sec' r, (s.procs p).pc = .inside lock sec →
      (s.procs q).pc = .inside lock' sec' → relOf (s.procs p) sec = some r →
      relOf (s.procs q) sec' = some r → p = q := by
  have hlink := linked_of_reachable h
  refine ⟨fun p q r hp hq => ?_, fun c c' r hc hc' => ?_, (tids_of_reachable h).inj,
    fun p q lock lock' sec sec' r hp hq hr hr' => ?_⟩
  · exact (hlink.links.children p r hp).2.symm.trans (hlink.links.children q r hq).2
  · have hsame := ((hlink.links.child c r).mp hc).symm.trans ((hlink.links.child c' r).mp hc')
    exact Option.some.inj hsame
  · obtain rfl := hlink.section_lock hp hr
    obtain rfl := hlink.section_lock hq hr'
    refine (hlink.guarded (s.rels r).statusLock).eq_of_inside ?_ ?_
    · simp [hp, lockPhase]
    · simp [hq, lockPhase]

-- The main thread starts two children.
theorem relations_exclusive_two : ∃ s, system.Reachable s ∧ (s.procs 0).childrenInR.length = 2 ∧
    (s.procs 1).tid ≠ (s.procs 2).tid := by
  obtain ⟨s, hr, hs⟩ := exists_run (fun _ _ => true) (starts 0 1 true ++ starts 0 2 true)
    (fun s => s.nextProc = 3 ∧ (s.procs 0).childrenInR.length = 2) (by decide +kernel)
  obtain ⟨hnext, htwo⟩ := of_decide_eq_true hs
  obtain ⟨-, -, htids, -⟩ := relations_exclusive hr.reachable
  exact ⟨s, hr.reachable, htwo, fun h => by cases htids 1 (by simp [hnext]) 2 (by simp [hnext]) h⟩

end ProcTable

end Pintos.Userprog
