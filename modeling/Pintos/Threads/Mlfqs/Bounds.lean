import Pintos.Threads.Mlfqs.Recompute

namespace Pintos.Threads

open Option Kernel

-- The load average of 500 threads that are always ready, which is not reached.
def loadLimit : Int := 500 * fConv

-- With a load below the limit no coefficient exceeds `coefficientMax`, and with such a
-- coefficient the values of recent_cpu at the end of a second stay between these two.
def coefficientMax : Int := 16367
def cpuMin : Int := -315809190
def cpuMax : Int := 1893200114

def CpuBounded (n recentCpu : Int) : Prop :=
  cpuMin ≤ recentCpu ∧ recentCpu ≤ cpuMax + n * fConv

theorem fConv_eq : fConv = 16384 := rfl

namespace Checked

variable {loadAvg numReady recentCpu nice coefficient : Int}

theorem coefficient_exact (hl : 0 ≤ loadAvg ∧ loadAvg < loadLimit) : ∃ divisor coefficient,
      (multFpn loadAvg 2 = some (2 * loadAvg) ∧ Threads.multFpn loadAvg 2 = 2 * loadAvg) ∧
      (addFpn (2 * loadAvg) 1 = some divisor ∧ Threads.addFpn (2 * loadAvg) 1 = divisor) ∧
      divisor ≠ 0 ∧
      (divFpfp (2 * loadAvg) divisor = some coefficient ∧
        Threads.divFpfp (2 * loadAvg) divisor = some coefficient) ∧
      0 ≤ coefficient ∧ coefficient ≤ coefficientMax := by
  simp only [loadLimit, fConv_eq] at hl
  have hdouble : (loadAvg * (2 * fConv)).tdiv fConv = 2 * loadAvg := by
    rw [fConv_eq, Int.tdiv_eq_ediv_of_nonneg (by omega)]
    omega
  have hm := multFpn_exact (x := loadAvg) (n := 2) (by decide) (by
    rw [hdouble, IsInt32]
    omega)
  have ha := addFpn_exact (x := 2 * loadAvg) (n := 1) (by decide) (by
    rw [fConv_eq, IsInt32]
    omega)
  have hnonneg : 0 ≤ (2 * loadAvg * fConv).tdiv (2 * loadAvg + 1 * fConv) := by
    rw [fConv_eq]
    exact Int.tdiv_nonneg (by omega) (by omega)
  have hle : (2 * loadAvg * fConv).tdiv (2 * loadAvg + 1 * fConv) ≤ coefficientMax := by
    rw [fConv_eq, coefficientMax, Int.tdiv_eq_ediv_of_nonneg (by omega)]
    have hlt := Int.ediv_lt_of_lt_mul (a := 2 * loadAvg * 16384) (b := 16368)
      (c := 2 * loadAvg + 1 * 16384) (by omega) (by omega)
    omega
  have hz : 2 * loadAvg + 1 * fConv ≠ 0 := by
    rw [fConv_eq]
    omega
  have hd := divFpfp_exact hz (x := 2 * loadAvg) (by
    rw [coefficientMax] at hle
    exact ⟨by omega, by omega⟩)
  rw [hdouble] at hm
  exact ⟨_, _, hm, ha, hz, hd, hnonneg, hle⟩

-- 59 / 60 is kept as 16110 parts of 16384.
def nextLoad (loadAvg numReady : Int) : Int :=
  16110 * loadAvg / 16384 + numReady * 16384 * 16384 / 983040

theorem nextLoadAvg_eq (hl : 0 ≤ loadAvg ∧ loadAvg < loadLimit)
    (hn : 0 ≤ numReady ∧ numReady ≤ 500) :
    ∃ coefficient, nextLoadAvg loadAvg numReady = some (nextLoad loadAvg numReady, coefficient) ∧
      Kernel.nextLoadAvg loadAvg numReady = some (nextLoad loadAvg numReady, coefficient) ∧
      (0 ≤ nextLoad loadAvg numReady ∧ nextLoad loadAvg numReady < loadLimit) ∧
      0 ≤ coefficient ∧ coefficient ≤ coefficientMax := by
  unfold nextLoad
  have hlimit := hl.2
  simp only [loadLimit, fConv_eq] at hlimit
  have hkept : (16110 * loadAvg).tdiv fConv = 16110 * loadAvg / 16384 := by
    rw [fConv_eq, Int.tdiv_eq_ediv_of_nonneg (by omega)]
  have hadded : (numReady * fConv * fConv).tdiv (60 * fConv) =
      numReady * 16384 * 16384 / 983040 := by
    rw [fConv_eq, Int.tdiv_eq_ediv_of_nonneg (by omega)]
    rfl
  obtain ⟨hratio, hratio'⟩ : divFpn (59 * fConv) 60 = some 16110 ∧
      Threads.divFpn (59 * fConv) 60 = some 16110 := ⟨by decide, by decide⟩
  obtain ⟨hk, hk'⟩ := multFpfp_exact (x := 16110) (y := loadAvg) (by
    rw [hkept, IsInt32]
    omega)
  obtain ⟨hc, hc'⟩ := convItofp_exact (n := numReady) (by
    rw [fConv_eq, IsInt32]
    omega)
  obtain ⟨hp, hp'⟩ := divFpn_exact (x := numReady * fConv) (n := 60) (by decide) (by decide) (by
    rw [hadded, IsInt32]
    omega)
  rw [hkept] at hk hk'
  rw [hadded] at hp hp'
  obtain ⟨hs, hs'⟩ := addFpfp_exact (x := 16110 * loadAvg / 16384)
    (y := numReady * 16384 * 16384 / 983040) (by
      rw [IsInt32]
      omega)
  have hnext : 0 ≤ 16110 * loadAvg / 16384 + numReady * 16384 * 16384 / 983040 ∧
      16110 * loadAvg / 16384 + numReady * 16384 * 16384 / 983040 < loadLimit := by
    rw [loadLimit, fConv_eq]
    omega
  obtain ⟨divisor, coefficient, ⟨hm, hm'⟩, ⟨ha, ha'⟩, _, ⟨hd, hd'⟩, hbound⟩ :=
    coefficient_exact hnext
  have hconv : convItofp 59 = some (59 * fConv) := rfl
  have hconv' : Threads.convItofp 59 = 59 * fConv := rfl
  refine ⟨coefficient, ?_, ?_, hnext, hbound⟩
  · simp [nextLoadAvg, hconv, hratio, hk, hc, hp, hs, hm, ha, hd]
  · simp [Kernel.nextLoadAvg, hconv', hratio', hk', hc', hp', hs', hm', ha', hd']

theorem nextLoadAvg_exact (hl : 0 ≤ loadAvg ∧ loadAvg < loadLimit)
    (hn : 0 ≤ numReady ∧ numReady ≤ 500) :
    ∃ next coefficient, nextLoadAvg loadAvg numReady = some (next, coefficient) ∧
      Kernel.nextLoadAvg loadAvg numReady = some (next, coefficient) ∧
      (0 ≤ next ∧ next < loadLimit) ∧ 0 ≤ coefficient ∧ coefficient ≤ coefficientMax :=
  ⟨_, nextLoadAvg_eq hl hn⟩

theorem product_bounds (hc : 0 ≤ coefficient ∧ coefficient ≤ coefficientMax)
    (hr : CpuBounded 100 recentCpu) :
    cpuMin + 20 * fConv ≤ (coefficient * recentCpu).tdiv fConv ∧
      (coefficient * recentCpu).tdiv fConv ≤ cpuMax - 20 * fConv := by
  simp only [CpuBounded, coefficientMax, cpuMin, cpuMax, fConv_eq] at hc hr ⊢
  have hlow : 16367 * (-315809190) ≤ coefficient * recentCpu := by nlinarith
  have hhigh : coefficient * recentCpu ≤ 16367 * (1893200114 + 100 * 16384) := by nlinarith
  have hlow' := Int.tdiv_le_tdiv (c := 16384) (by decide) hlow
  have hhigh' := Int.tdiv_le_tdiv (c := 16384) (by decide) hhigh
  exact ⟨hlow'.trans' (by decide), hhigh'.trans (by decide)⟩

theorem decayed_exact (hc : 0 ≤ coefficient ∧ coefficient ≤ coefficientMax)
    (hr : CpuBounded 100 recentCpu) (hn : -20 ≤ nice ∧ nice ≤ 20) :
    ∃ next : Int, (do addFpn (← multFpfp coefficient recentCpu) nice) = some next ∧
      Threads.addFpn (Threads.multFpfp coefficient recentCpu) nice = next ∧
      CpuBounded 0 next := by
  have hp := product_bounds hc hr
  simp only [cpuMin, cpuMax, fConv_eq] at hp
  obtain ⟨hm, hm'⟩ := multFpfp_exact (x := coefficient) (y := recentCpu) (by
    rw [fConv_eq, IsInt32]
    omega)
  obtain ⟨ha, ha'⟩ := addFpn_exact (x := (coefficient * recentCpu).tdiv fConv) (n := nice)
    (by
      rw [fConv_eq, IsInt32]
      omega)
    (by
      rw [fConv_eq, IsInt32]
      omega)
  refine ⟨(coefficient * recentCpu).tdiv fConv + nice * fConv, ?_, ?_, ?_⟩
  · simpa [hm] using ha
  · rw [hm', ha']
  · rw [CpuBounded, cpuMin, cpuMax, fConv_eq]
    omega

theorem charged_exact (hr : CpuBounded 99 recentCpu) :
    addFpn recentCpu 1 = some (recentCpu + fConv) ∧
      Threads.addFpn recentCpu 1 = recentCpu + fConv := by
  simp only [CpuBounded, cpuMin, cpuMax, fConv_eq] at hr
  have h := addFpn_exact (x := recentCpu) (n := 1) (by decide) (by
    rw [fConv_eq, IsInt32]
    omega)
  rwa [one_mul] at h

theorem mlfqsPriority_exact (hr : CpuBounded 100 recentCpu) (hn : -20 ≤ nice ∧ nice ≤ 20) :
    ∃ p, mlfqsPriority recentCpu nice = some p ∧ Kernel.mlfqsPriority recentCpu nice = some p := by
  simp only [CpuBounded, cpuMin, cpuMax, fConv_eq] at hr
  have hlow := Int.tdiv_le_tdiv (a := -315809190 * 16384) (b := recentCpu * 16384)
    (c := 4 * 16384) (by decide) (by omega)
  have hhigh := Int.tdiv_le_tdiv (a := recentCpu * 16384) (b := 2000000000 * 16384)
    (c := 4 * 16384) (by decide) (by omega)
  have hlow' : -78952298 ≤ (recentCpu * 16384).tdiv (4 * 16384) := hlow.trans' (by decide)
  have hhigh' : (recentCpu * 16384).tdiv (4 * 16384) ≤ 500000000 := hhigh.trans (by decide)
  obtain ⟨hq, hq'⟩ := divFpn_exact (x := recentCpu) (n := 4) (by decide) (by decide) (by
    rw [fConv_eq, IsInt32]
    omega)
  obtain ⟨hs, hs'⟩ := subFpfp_exact (x := 63 * fConv) (y := (recentCpu * fConv).tdiv (4 * fConv))
    (by
      rw [fConv_eq, IsInt32]
      omega)
  obtain ⟨hd, hd'⟩ := subFpn_exact (x := 63 * fConv - (recentCpu * fConv).tdiv (4 * fConv))
    (n := nice * 2)
    (by
      rw [fConv_eq, IsInt32]
      omega)
    (by
      rw [fConv_eq, IsInt32]
      omega)
  have htwice : store (nice * 2) = some (nice * 2) := store_eq ⟨by omega, by omega⟩
  have hmax : convItofp priMax = some (63 * fConv) := rfl
  have hmax' : Threads.convItofp priMax = 63 * fConv := rfl
  obtain ⟨p, hp⟩ := Account.exists_mlfqsPriority recentCpu nice
  refine ⟨p, ?_, hp⟩
  rw [← hp]
  simp [mlfqsPriority, Kernel.mlfqsPriority, hq, hq', hmax, hmax', hs, hs', htwice, hd, hd']

end Checked

namespace Account

variable {a : Account} {n m : Int} {coefficient : Fp} {running second slice : Bool}

structure Bounded (n : Int) (a : Account) : Prop where
  recentCpu : CpuBounded n a.recentCpu
  nice : -20 ≤ a.nice ∧ a.nice ≤ 20

theorem Bounded.mono (h : a.Bounded n) (hnm : n ≤ m) : a.Bounded m := by
  refine ⟨?_, h.nice⟩
  have hcpu := h.recentCpu
  rw [CpuBounded, fConv_eq] at hcpu ⊢
  omega

theorem opened_bounded (hn : 0 ≤ n) : opened.Bounded n := by
  refine ⟨?_, by decide⟩
  change CpuBounded n 0
  rw [CpuBounded, cpuMin, cpuMax, fConv_eq]
  omega

theorem Bounded.charged (h : a.Bounded n) (hn : n ≤ 99) : a.charged.Bounded (n + 1) := by
  have hcpu := h.recentCpu
  have hcharged : a.charged.recentCpu = a.recentCpu + fConv :=
    (Checked.charged_exact (h.mono hn).recentCpu).2
  refine ⟨?_, h.nice⟩
  rw [hcharged]
  rw [CpuBounded, fConv_eq] at hcpu ⊢
  omega

theorem Bounded.decayed (h : a.Bounded 100) (hc : 0 ≤ coefficient ∧ coefficient ≤ coefficientMax) :
    (a.decayed coefficient).Bounded 0 := by
  obtain ⟨next, _, hnext, hbound⟩ := Checked.decayed_exact hc h.recentCpu h.nice
  have hdecayed : (a.decayed coefficient).recentCpu = next := hnext
  refine ⟨?_, h.nice⟩
  rw [hdecayed]
  exact hbound

theorem Bounded.refreshed (h : a.Bounded n) : a.refreshed.Bounded n := by
  unfold Account.refreshed
  split
  · exact ⟨h.recentCpu, h.nice⟩
  · exact h

theorem Bounded.ticked (h : a.Bounded n) (hn : n ≤ 99)
    (hc : second = true → n = 99 ∧ 0 ≤ coefficient ∧ coefficient ≤ coefficientMax)
    (hm : m = if second then 0 else n + 1) :
    (a.ticked running second slice coefficient).Bounded m := by
  subst hm
  have hcharge : (if running then a.charged else a).Bounded (n + 1) := by
    cases running with
    | true => exact h.charged hn
    | false => exact h.mono (by omega)
  have hdecay : (if second then (if running then a.charged else a).decayed coefficient
      else if running then a.charged else a).Bounded (if second then 0 else n + 1) := by
    cases second with
    | true =>
      obtain ⟨rfl, hbound⟩ := hc rfl
      exact hcharge.decayed hbound
    | false => exact hcharge
  cases slice with
  | true => exact hdecay.refreshed
  | false => exact hdecay

end Account

namespace Kernel

variable {k k' : Kernel} {t : ThreadRef} {op : Op} {flag : Bool}

def uncrowded (k : Kernel) : Op → Bool
  | .timerInterrupt => decide ((k.ticks + 1) % timerFreq = 0 → k.readyCount ≤ 500)
  | _ => true

structure Bounded (k : Kernel) : Prop where
  mlfqs : k.mlfqs = true
  load : 0 ≤ k.loadAvg ∧ k.loadAvg < loadLimit
  accounts : ∀ t ∈ k.allList, (k.account t).Bounded (k.ticks % timerFreq)

theorem Bounded.frame (h : k.Bounded) (hf : k.AccountFrame k') : k'.Bounded := by
  refine ⟨hf.mlfqs.trans h.mlfqs, by rw [hf.loadAvg]; exact h.load, fun t ht => ?_⟩
  rw [hf.account, hf.ticks]
  exact h.accounts t (hf.allList ▸ ht)

theorem Bounded.open (h : k.Bounded) (t : ThreadRef) :
    ((k.setThread t (.setAccount .opened)).setAllList (k.allList ++ [t])).Bounded := by
  refine ⟨h.mlfqs, h.load, fun u hu => ?_⟩
  by_cases hut : u = t
  · subst hut
    have hopened : ((k.setThread u (.setAccount .opened)).setAllList (k.allList ++ [u])).account u =
        .opened := by
      simp [account, Thread.account, Thread.setAccount]
    rw [hopened]
    exact Account.opened_bounded (Int.emod_nonneg _ (by decide))
  · simpa [account, hut] using h.accounts u (by simpa [hut] using hu)

theorem readyCount_nonneg (k : Kernel) : 0 ≤ k.readyCount := by
  unfold readyCount
  split_ifs <;> omega

theorem Bounded.ticked (h : k.Bounded) (hcount : k.uncrowded .timerInterrupt = true)
    (ht : k.Ticked k') : k'.Bounded := by
  have hload := ht.load
  have haccount := ht.account
  simp only [uncrowded, decide_eq_true_eq] at hcount
  by_cases hsecond : (k.ticks + 1) % timerFreq = 0
  · obtain ⟨next, coefficient, _, hnext, hbound, hc⟩ :=
      Checked.nextLoadAvg_exact h.load ⟨k.readyCount_nonneg, hcount hsecond⟩
    rw [if_pos hsecond, hnext, some.injEq, Prod.mk.injEq] at hload
    obtain ⟨rfl, rfl⟩ := hload
    refine ⟨ht.mlfqs.trans h.mlfqs, hbound, fun t hmem => ?_⟩
    rw [ht.allList] at hmem
    rw [haccount t hmem, ht.ticks]
    refine (h.accounts t hmem).ticked (by unfold timerFreq; omega) (fun _ => ⟨?_, hc⟩) ?_
    · unfold timerFreq at hsecond ⊢
      omega
    · simp [hsecond]
  · rw [if_neg hsecond] at hload
    refine ⟨ht.mlfqs.trans h.mlfqs, by rw [hload.1]; exact h.load, fun t hmem => ?_⟩
    rw [ht.allList] at hmem
    rw [haccount t hmem, ht.ticks]
    refine (h.accounts t hmem).ticked (by unfold timerFreq; omega) (fun hs => ?_) ?_
    · exact absurd (of_decide_eq_true hs) hsecond
    · simp only [hsecond, decide_false, Bool.false_eq_true, if_false]
      unfold timerFreq at hsecond ⊢
      omega

theorem Bounded.exec (h : k.Bounded) (hq : k.QueueInv) (hg : k.uncrowded op = true)
    (hx : k.exec op = .ok k') : k'.Bounded := by
  cases exec_accountStep h.mlfqs hx with
  | quiet _ hf => exact h.frame hf
  | create hf => exact (h.open _).frame hf
  | exit hf =>
    have hleft : (k.setAllList (k.allList.erase k.current)).Bounded :=
      ⟨h.mlfqs, h.load, fun t ht => h.accounts t (List.mem_of_mem_erase ht)⟩
    exact hleft.frame hf
  | @nice n p _ hn _ hf =>
    have hset : (k.setThread k.current fun x => (x.setNice n).setPriority p).Bounded := by
      refine ⟨h.mlfqs, h.load, fun t ht => ?_⟩
      by_cases hcur : t = k.current
      · subst hcur
        have haccount : (k.setThread k.current fun x =>
            (x.setNice n).setPriority p).account k.current =
            { k.account k.current with nice := n, priority := p } := by
          simp [account, Thread.account]
        rw [haccount]
        exact ⟨(h.accounts k.current ht).recentCpu, hn.symm⟩
      · simpa [account, hcur] using h.accounts t ht
    exact hset.frame hf
  | tick ht hf => exact (h.ticked hg (threadTick_ticked hq h.mlfqs ht)).frame hf

theorem bounded_of_reachable
    (h : (system true).ReachableVia (fun k op => k.uncrowded op = true) k) : k.Bounded := by
  apply h.invariant
  · rintro k ⟨semaInit, hb⟩
    apply boot_accounts (fun k hk => hk.mlfqs) _ _ _ hb
    · exact fun k k' hk hf => Bounded.frame hk hf
    · exact fun k t hk => Bounded.open hk t
    · have hzero : (0 : Int) ≤ 0 ∧ 0 < loadLimit := by decide
      exact ⟨rfl, hzero, fun t ht => by cases ht⟩
  · intro k op k' hr hb hg hs
    exact hb.exec (queueInv_of_reachable hr.reachable) hg hs.2

end Kernel

namespace Checked

variable {k : Kernel} {t : ThreadRef} {l : List ThreadRef}

theorem mlfqsCharge_eq (h : some t ≠ k.idleThread → (k.account t).Bounded 99) :
    mlfqsCharge k t = some (k.mlfqsCharge t) := by
  unfold mlfqsCharge Kernel.mlfqsCharge
  split_ifs with hi
  · obtain ⟨hc, hp⟩ := charged_exact (h hi).recentCpu
    have hc' : addFpn (k.threads t).recentCpu 1 = some ((k.threads t).recentCpu + fConv) := hc
    have hp' : Threads.addFpn (k.threads t).recentCpu 1 = (k.threads t).recentCpu + fConv := hp
    rw [hc', hp']
    rfl
  · rfl

theorem threadCalculateRecentCpu_eq
    (hc : 0 ≤ k.loadAvgCoefficient ∧ k.loadAvgCoefficient ≤ coefficientMax)
    (h : (k.account t).Bounded 100) :
    threadCalculateRecentCpu k t = some (k.threadCalculateRecentCpu t) := by
  obtain ⟨next, hnext, hnext', _⟩ := decayed_exact hc h.recentCpu h.nice
  obtain ⟨product, hproduct, hsum⟩ := bind_eq_some_iff.mp hnext
  have hm : multFpfp k.loadAvgCoefficient (k.threads t).recentCpu = some product := hproduct
  have ha : addFpn product (k.threads t).nice = some next := hsum
  have hp : Threads.addFpn (Threads.multFpfp k.loadAvgCoefficient (k.threads t).recentCpu)
      (k.threads t).nice = next := hnext'
  simp [threadCalculateRecentCpu, Kernel.threadCalculateRecentCpu, hm, ha, hp]

theorem foldlM_threadCalculateRecentCpu_eq (hl : l.Nodup)
    (hc : 0 ≤ k.loadAvgCoefficient ∧ k.loadAvgCoefficient ≤ coefficientMax)
    (h : ∀ t ∈ l, (k.account t).Bounded 100) :
    l.foldlM threadCalculateRecentCpu k = some (l.foldl Kernel.threadCalculateRecentCpu k) := by
  induction l generalizing k with
  | nil => rfl
  | cons t l ih =>
    obtain ⟨hnot, hl⟩ := List.nodup_cons.mp hl
    rw [List.foldlM_cons, threadCalculateRecentCpu_eq hc (h t (by simp)), List.foldl_cons]
    apply ih (k := k.threadCalculateRecentCpu t) hl hc
    intro u hu
    have hne : u ≠ t := fun heq => hnot (heq ▸ hu)
    rw [threadCalculateRecentCpu_account, if_neg hne]
    exact h u (by simp [hu])

theorem threadCalculateLoadAvg_eq (hload : 0 ≤ k.loadAvg ∧ k.loadAvg < loadLimit)
    (hcount :
      ((k.lists .ready).length : Int) + (if some k.current ≠ k.idleThread then 1 else 0) ≤ 500) :
    ∃ k', threadCalculateLoadAvg k = some k' ∧ k.threadCalculateLoadAvg = .ok k' ∧
      k'.allList = k.allList ∧ (∀ t, k'.account t = k.account t) ∧
      0 ≤ k'.loadAvgCoefficient ∧ k'.loadAvgCoefficient ≤ coefficientMax := by
  have hready : 0 ≤ (if some k.current ≠ k.idleThread then ((k.lists .ready).length : Int) + 1
        else (k.lists .ready).length) ∧
      (if some k.current ≠ k.idleThread then ((k.lists .ready).length : Int) + 1
        else (k.lists .ready).length) ≤ 500 := by
    split_ifs at hcount ⊢ <;> omega
  generalize hn : (if some k.current ≠ k.idleThread then ((k.lists .ready).length : Int) + 1
    else (k.lists .ready).length) = numReady at hready
  obtain ⟨next, coefficient, hc, hp, _, hbound⟩ := nextLoadAvg_exact hload hready
  refine ⟨{ k with loadAvg := next, loadAvgCoefficient := coefficient }, ?_, ?_, rfl,
    fun _ => rfl, hbound⟩
  · unfold threadCalculateLoadAvg
    simp only [hn, hc, bind_eq_bind, bind_some, pure_def]
  · unfold Kernel.threadCalculateLoadAvg
    simp only [hn, hp]

theorem mlfqsSecond_eq (hl : k.allList.Nodup) (hload : 0 ≤ k.loadAvg ∧ k.loadAvg < loadLimit)
    (hcount : k.ticks % timerFreq = 0 →
      ((k.lists .ready).length : Int) + (if some k.current ≠ k.idleThread then 1 else 0) ≤ 500)
    (h : ∀ t ∈ k.allList, (k.account t).Bounded 100) :
    ∃ k', mlfqsSecond k = some k' ∧ k.mlfqsSecond = .ok k' ∧
      ∀ t ∈ k.allList, (k'.account t).Bounded 100 := by
  unfold mlfqsSecond Kernel.mlfqsSecond
  split_ifs with hs
  · obtain ⟨k1, hc, hp, hall, haccount, hbound⟩ := threadCalculateLoadAvg_eq hload (hcount hs)
    have hl1 : k1.allList.Nodup := hall ▸ hl
    have hfold := foldlM_threadCalculateRecentCpu_eq hl1 hbound fun t ht => by
      rw [haccount]
      exact h t (hall ▸ ht)
    refine ⟨k1.allList.foldl Kernel.threadCalculateRecentCpu k1, ?_, ?_, fun t ht => ?_⟩
    · rw [hc]
      exact hfold
    · rw [hp]
      rfl
    · rw [foldl_threadCalculateRecentCpu_account hl1, if_pos (hall ▸ ht), haccount]
      exact ((h t ht).decayed hbound).mono (by decide)
  · exact ⟨k, rfl, rfl, h⟩

theorem threadCalculatePriority_eq (h : (k.account t).Bounded 100) :
    ∃ r, threadCalculatePriority k t = some r ∧ k.threadCalculatePriority t = .ok r := by
  obtain ⟨p, hc, hp⟩ := mlfqsPriority_exact h.recentCpu h.nice
  have hc' : mlfqsPriority (k.threads t).recentCpu (k.threads t).nice = some p := hc
  have hp' : Kernel.mlfqsPriority (k.threads t).recentCpu (k.threads t).nice = some p := hp
  unfold threadCalculatePriority Kernel.threadCalculatePriority
  rw [hc', hp']
  exact ⟨_, rfl, rfl⟩

theorem threadForeachPriorities_eq (hl : l.Nodup) (h : ∀ t ∈ l, (k.account t).Bounded 100) :
    ∃ r, threadForeachPriorities l k = some r ∧ Kernel.threadForeachPriorities l k = .ok r := by
  induction l generalizing k with
  | nil => exact ⟨_, rfl, rfl⟩
  | cons t l ih =>
    obtain ⟨hnot, hl⟩ := List.nodup_cons.mp hl
    obtain ⟨⟨k1, outranked⟩, hc, hp⟩ : ∃ r, threadUpdatePriorities k t = some r ∧
        k.threadUpdatePriorities t = .ok r := by
      unfold threadUpdatePriorities Kernel.threadUpdatePriorities
      split_ifs
      · apply threadCalculatePriority_eq
        have ht := h t (by simp)
        exact ⟨by simpa [account, Thread.account] using ht.recentCpu,
          by simpa [account, Thread.account] using ht.nice⟩
      · exact ⟨_, rfl, rfl⟩
    obtain ⟨_, _, _, _, _, haccount⟩ := threadUpdatePriorities_account hp
    obtain ⟨⟨k2, more⟩, hc2, hp2⟩ := ih (k := k1) hl (by
      intro u hu
      have hne : u ≠ t := fun heq => hnot (heq ▸ hu)
      rw [haccount, if_neg hne]
      exact h u (by simp [hu]))
    refine ⟨(k2, outranked || more), ?_, ?_⟩
    · simp [threadForeachPriorities, hc, hc2]
    · simp [Kernel.threadForeachPriorities, hp, hp2, bind, Except.bind, pure, Except.pure]

theorem mlfqsSlice_eq (hl : k.allList.Nodup) (h : ∀ t ∈ k.allList, (k.account t).Bounded 100) :
    ∃ r, mlfqsSlice k = some r ∧ k.mlfqsSlice = .ok r := by
  unfold mlfqsSlice Kernel.mlfqsSlice
  split_ifs
  · exact threadForeachPriorities_eq hl h
  · exact ⟨_, rfl, rfl⟩

theorem mlfqsTick_eq (hm : k.mlfqs = true) (hl : k.allList.Nodup) (ht : t ∈ k.allList)
    (hload : 0 ≤ k.loadAvg ∧ k.loadAvg < loadLimit)
    (hcount : k.ticks % timerFreq = 0 →
      ((k.lists .ready).length : Int) + (if some k.current ≠ k.idleThread then 1 else 0) ≤ 500)
    (h : ∀ t ∈ k.allList, (k.account t).Bounded 99) :
    ∃ r, mlfqsTick k t = some r ∧ k.mlfqsTick t = .ok r := by
  have hcharge := mlfqsCharge_eq (t := t) fun _ => h t ht
  obtain ⟨hframe, hlists, -⟩ := charges_tickFrame.mlfqsCharge k t
  have hloads := mlfqsCharge_load k t
  have hbound : ∀ u ∈ k.allList, ((k.mlfqsCharge t).account u).Bounded 100 := by
    intro u hu
    rw [mlfqsCharge_account]
    split_ifs
    · exact (h u hu).charged le_rfl
    · exact (h u hu).mono (by decide)
  obtain ⟨k2, hc2, hp2, hbound2⟩ := mlfqsSecond_eq (k := k.mlfqsCharge t)
    (hframe.allList ▸ hl) (hloads.1 ▸ hload)
    (by rw [hframe.ticks, hframe.current, hframe.idleThread, hlists]; exact hcount)
    (hframe.allList ▸ hbound)
  obtain ⟨_, hall2, _⟩ := mlfqsSecond_account (hframe.allList ▸ hl) hp2
  obtain ⟨r, hc3, hp3⟩ := mlfqsSlice_eq (k := k2) (by rw [hall2, hframe.allList]; exact hl)
    (by rw [hall2]; exact hbound2)
  refine ⟨r, ?_, ?_⟩
  · simp [mlfqsTick, hm, hcharge, hc2, hc3]
  · simp [Kernel.mlfqsTick, hm, hp2, hp3, bind, Except.bind]

theorem threadTick_eq (hq : k.QueueInv) (hb : k.Bounded)
    (hcount : k.uncrowded .timerInterrupt = true) :
    ∃ k' flag, threadTick k.countTick = some (k', flag) ∧
      k.countTick.threadTick = .ok (k', flag) := by
  have hwake := wakeSleepers_accounts k.countTick
  have hframe := wakeSleepers_tickFrame k.countTick
  have hrunning := (hq.running.2 _ hq.running.1).mpr rfl
  have hcurrent : k.countTick.threadCurrent = .ok k.current :=
    threadCurrent_ok_iff.mpr ⟨hq.running.1, hrunning, rfl⟩
  have hmem : k.current ∈ k.allList :=
    (hq.allListed.2 k.current).mpr ⟨hq.running.1, by simp [hrunning]⟩
  simp only [Kernel.uncrowded, decide_eq_true_eq] at hcount
  obtain ⟨⟨k', recomputed⟩, hc, hp⟩ := mlfqsTick_eq (k := k.countTick.wakeSleepers)
    (t := k.current) (hwake.mlfqs.trans hb.mlfqs) (hwake.allList ▸ hq.allListed.1)
    (hwake.allList ▸ hmem) (hwake.loadAvg ▸ hb.load)
    (by rw [hframe.ticks, hframe.current, hframe.idleThread]; exact hcount)
    (by
      rw [hwake.allList]
      intro t ht
      rw [hwake.account]
      refine (hb.accounts t ht).mono ?_
      unfold timerFreq
      omega)
  refine ⟨k'.countThreadTick, decide ((k.countTick.wakeSleepers.threads k.current).priority >
    k.countTick.wakeSleepers.threadListTopPri .ready) || recomputed ||
    decide (k'.countThreadTick.threadTicks ≥ timeSlice), ?_, ?_⟩
  · simp only [threadTick, hcurrent, Except.toOption, hc, bind_eq_bind, bind_some, pure_def]
  · simp only [Kernel.threadTick, hcurrent, hp, bind, Except.bind, pure, Except.pure]

end Checked

namespace Kernel

theorem mlfqs_arithmetic_never_overflows (k : Kernel)
    (hr : (system true).ReachableVia (fun k op => k.uncrowded op = true) k) :
    (0 ≤ k.loadAvg ∧ k.loadAvg < 500 * 2 ^ 14) ∧
    addFpn (multFpn k.loadAvg 2) 1 ≠ 0 ∧
    (∀ t ∈ k.allList,
      -(2 ^ 31) < (k.threads t).recentCpu ∧ (k.threads t).recentCpu < 2 ^ 31 - 1) ∧
    (k.uncrowded .timerInterrupt = true →
      ∃ k' flag, Checked.threadTick k.countTick = some (k', flag) ∧
        k.countTick.threadTick = .ok (k', flag)) ∧
    ∀ nice, nice ≤ 20 ∧ -20 ≤ nice →
      ∃ r, Checked.threadCalculatePriority (k.setThread k.current (.setNice nice)) k.current =
          some r ∧
        (k.setThread k.current (.setNice nice)).threadCalculatePriority k.current = .ok r := by
  have hq := queueInv_of_reachable hr.reachable
  have hb := bounded_of_reachable hr
  have hbounded : ∀ t ∈ k.allList, (k.account t).Bounded 100 := fun t ht =>
    (hb.accounts t ht).mono (by unfold timerFreq; omega)
  refine ⟨hb.load, ?_, fun t ht => ?_, Checked.threadTick_eq hq hb, fun nice hn => ?_⟩
  · obtain ⟨divisor, _, ⟨_, hm⟩, ⟨_, ha⟩, hz, _⟩ := Checked.coefficient_exact hb.load
    rw [hm, ha]
    exact hz
  · have hcpu : CpuBounded 100 (k.threads t).recentCpu := (hbounded t ht).recentCpu
    exact ⟨lt_of_lt_of_le (by decide) hcpu.1, lt_of_le_of_lt hcpu.2 (by decide)⟩
  · have hmem : k.current ∈ k.allList := (hq.allListed.2 k.current).mpr
      ⟨hq.running.1, by simp [(hq.running.2 _ hq.running.1).mpr rfl]⟩
    apply Checked.threadCalculatePriority_eq
    have haccount : (k.setThread k.current (.setNice nice)).account k.current =
        { k.account k.current with nice := nice } := by
      simp [account, Thread.account]
    rw [haccount]
    exact ⟨(hbounded k.current hmem).recentCpu, hn.symm⟩

-- Main runs alone until the tick that ends the first second.
theorem mlfqs_arithmetic_never_overflows_first_second :
    ∃ k k' flag, (system true).ReachableVia (fun k op => k.uncrowded op = true) k ∧
      (k.ticks + 1) % timerFreq = 0 ∧ (k.threads mainThread).recentCpu = 99 * fConv ∧
      Checked.threadTick k.countTick = some (k', flag) ∧
      k.countTick.threadTick = .ok (k', flag) := by
  obtain ⟨k, hr, hp⟩ := leadsTo_reachable true uncrowded
    ([.threadBlock, .resume] ++ List.replicate 99 .timerInterrupt)
    (fun k => (k.ticks + 1) % timerFreq = 0 ∧ (k.threads mainThread).recentCpu = 99 * fConv ∧
      k.uncrowded .timerInterrupt = true) (by decide +kernel)
  obtain ⟨hsecond, hcpu, hcount⟩ := of_decide_eq_true hp
  obtain ⟨k', flag, hc, ht⟩ := (mlfqs_arithmetic_never_overflows k hr).2.2.2.1 hcount
  exact ⟨k, k', flag, hr, hsecond, hcpu, hc, ht⟩

end Kernel

end Pintos.Threads
