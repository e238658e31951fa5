import ServiceBridge.Server
import ServiceBridge.Library.Loop

/-! The number of threads that `init_server` creates. The total is capped, divided among the services, and
    the remainder of the division goes to every one of them. -/

namespace ServiceBridge
open Command

/-! ### The loop that creates threads -/

section
variable {m : Nat} {threads : List Thread}

theorem createThreads_run (h : m < 2 ^ 32) : Loop.run Fault.diverges (createPass m) (2 ^ 32) ⟨0, threads⟩ =
    .ok ⟨m, threads ++ List.replicate m .schedulerRun⟩ := by
  obtain ⟨c, hrun, ⟨hle, hthreads⟩, leave⟩ := Loop.exists_run Fault.diverges (createPass m)
    (n := 2 ^ 32) (s := ⟨0, threads⟩)
    (I := fun c => c.i ≤ m ∧ c.threads = threads ++ List.replicate c.i .schedulerRun) (μ := fun c => m - c.i)
    (fun c ⟨hle, hthreads⟩ => by
      unfold createPass
      by_cases hlt : c.i < m
      · have hmod : (c.i + 1) % 2 ^ 32 = c.i + 1 := Nat.mod_eq_of_lt (by omega)
        refine Or.inr ⟨_, if_pos hlt, ⟨?_, ?_⟩, ?_⟩
        · show (c.i + 1) % 2 ^ 32 ≤ m
          omega
        · show c.threads ++ _ = _ ++ List.replicate ((c.i + 1) % 2 ^ 32) _
          rw [hmod, hthreads, List.append_assoc, List.replicate_succ']
        · show m - (c.i + 1) % 2 ^ 32 < m - c.i
          omega
      · exact Or.inl (if_neg hlt)) ⟨Nat.zero_le _, by simp⟩ (by simpa using h)
  have hi : c.i = m := by
    unfold createPass at leave
    by_cases hlt : c.i < m
    · rw [if_pos hlt] at leave
      cases leave
    · omega
  obtain ⟨i, ts⟩ := c
  obtain rfl : i = m := hi
  rw [hrun, show ts = _ from hthreads]

theorem createThreads_diverges (h : 2 ^ 32 ≤ m) :
    Loop.run Fault.diverges (createPass m) (2 ^ 32) ⟨0, threads⟩ = .error .diverges := by
  refine Loop.run_stuck (I := fun c => c.i < 2 ^ 32) (fun c hc => ?_) (Nat.two_pow_pos 32)
  exact ⟨_, if_pos (Nat.lt_of_lt_of_le hc h), Nat.mod_lt _ (Nat.two_pow_pos 32)⟩

end

/-! ### What init_server computes -/

/-- `MtotalThreads` under the cap, from `NthreadsPerTopic` and the number of services. -/
def cappedTotal (lim N S : Nat) : Nat :=
  if 0 < lim then min lim (N * S % Str.sizeRange) else N * S % Str.sizeRange

def perTopic (lim N S : Nat) : Nat :=
  (cappedTotal lim N S / S + if 1 < S then cappedTotal lim N S % S else 0) % Str.sizeRange

def totalThreads (lim N S : Nat) : Nat := perTopic lim N S * S % Str.sizeRange

theorem exec_modifyServer (f : Server → Server) (p : Process) :
    (modifyServer f).exec p = (.ok ⟨⟩, ⟨f p.server, p.cout⟩) := rfl

theorem capThreads_exec (host : Host) (p : Process) : (capThreads host).exec p = (.ok ⟨⟩, ⟨{ p.server with
    ip := host.address
    numServices := p.server.serviceNames.card
    mTotalThreads := cappedTotal (cpuLim host) p.server.nThreadsPerTopic p.server.serviceNames.card }, p.cout⟩) := by
  unfold capThreads cappedTotal
  simp only [exec_bind, exec_modifyServer, andThen_ok]
  split <;> rfl

theorem spreadThreads_exec {p : Process} (hS : p.server.numServices ≠ 0) :
    let per := (p.server.mTotalThreads / p.server.numServices +
      if 1 < p.server.numServices then p.server.mTotalThreads % p.server.numServices else 0) % Str.sizeRange
    spreadThreads.exec p = (.ok ⟨⟩, ⟨{ p.server with
      nThreadsPerTopic := per
      mTotalThreads := per * p.server.numServices % Str.sizeRange }, p.cout⟩) := by
  have hrest : (if 1 < p.server.numServices then modulo p.server.mTotalThreads p.server.numServices else .ok 0) =
      .ok (if 1 < p.server.numServices then p.server.mTotalThreads % p.server.numServices else 0) := by
    split
    · exact if_neg hS
    · rfl
  unfold spreadThreads
  simp only [exec_bind, exec_get, exec_liftM, exec_modifyServer, andThen_ok, divide, if_neg hS, hrest]

theorem createThreads_exec (p : Process) : createThreads.exec p =
    if p.server.mTotalThreads < 2 ^ 32 then
      (.ok ⟨⟩, ⟨{ p.server with
        threads := p.server.threads ++ List.replicate p.server.mTotalThreads .schedulerRun }, p.cout⟩)
    else (.error .diverges, p) := by
  unfold createThreads
  simp only [exec_bind, exec_get, exec_liftM, andThen_ok]
  by_cases h : p.server.mTotalThreads < 2 ^ 32
  · rw [createThreads_run h, if_pos h, andThen_ok, exec_modifyServer]
  · rw [createThreads_diverges (Nat.le_of_not_lt h), if_neg h, andThen_error]

def initialized (host : Host) (s : Server) : Server :=
  { s with
    ip := host.address
    numServices := s.serviceNames.card
    nThreadsPerTopic := perTopic (cpuLim host) s.nThreadsPerTopic s.serviceNames.card
    mTotalThreads := totalThreads (cpuLim host) s.nThreadsPerTopic s.serviceNames.card
    threads := s.threads ++
      List.replicate (totalThreads (cpuLim host) s.nThreadsPerTopic s.serviceNames.card) .schedulerRun }

/-- With a service, `init_server` returns exactly when its loop variable can count the threads. -/
theorem initServer_exec (host : Host) (p : Process) (hS : p.server.serviceNames.card ≠ 0) :
    (totalThreads (cpuLim host) p.server.nThreadsPerTopic p.server.serviceNames.card < 2 ^ 32 →
      (initServer host).exec p = (.ok 0, ⟨initialized host p.server, p.cout⟩)) ∧
    (2 ^ 32 ≤ totalThreads (cpuLim host) p.server.nThreadsPerTopic p.server.serviceNames.card →
      ((initServer host).exec p).1 = .error .diverges) := by
  unfold initServer
  simp only [exec_bind, capThreads_exec, andThen_ok]
  rw [spreadThreads_exec hS]
  simp only [andThen_ok, exec_bind, createThreads_exec]
  constructor
  · intro h
    rw [if_pos (by exact h)]
    rfl
  · intro h
    rw [if_neg (by exact Nat.not_lt_of_le h)]
    rfl

/-- Without a service, `init_server` divides by zero. -/
theorem initServer_zero (host : Host) (p : Process) (hS : p.server.serviceNames.card = 0) :
    ((initServer host).exec p).1 = .error .divisionByZero := by
  unfold initServer
  simp only [exec_bind, capThreads_exec, andThen_ok]
  unfold spreadThreads
  simp only [exec_bind, exec_get, exec_liftM, andThen_ok, divide, if_pos hS]
  rfl

/-! ### The budget -/

section
variable {lim N S hw : Nat}

theorem cappedTotal_lt : cappedTotal lim N S < Str.sizeRange := by
  have hmod : N * S % Str.sizeRange < Str.sizeRange := Nat.mod_lt _ (Nat.two_pow_pos 64)
  unfold cappedTotal
  split
  · exact Nat.lt_of_le_of_lt (Nat.min_le_right _ _) hmod
  · exact hmod

theorem perTopic_eq_share (hS : 1 ≤ S) :
    perTopic lim N S = cappedTotal lim N S / S + cappedTotal lim N S % S := by
  have hrest : (if 1 < S then cappedTotal lim N S % S else 0) = cappedTotal lim N S % S := by
    split
    · rfl
    · rw [show S = 1 by omega, Nat.mod_one]
  have hle : cappedTotal lim N S / S + cappedTotal lim N S % S ≤ cappedTotal lim N S := calc
    cappedTotal lim N S / S + cappedTotal lim N S % S
      ≤ S * (cappedTotal lim N S / S) + cappedTotal lim N S % S :=
        Nat.add_le_add_right (Nat.le_mul_of_pos_left _ hS) _
    _ = cappedTotal lim N S := Nat.div_add_mod _ _
  rw [perTopic, hrest, Nat.mod_eq_of_lt (Nat.lt_of_le_of_lt hle cappedTotal_lt)]

theorem perTopic_eq (hS : 1 ≤ S) (hfit : N * S < Str.sizeRange) : perTopic lim N S =
    (if 0 < lim then min lim (N * S) else N * S) / S + (if 0 < lim then min lim (N * S) else N * S) % S := by
  have hcapped : cappedTotal lim N S = if 0 < lim then min lim (N * S) else N * S := by
    rw [cappedTotal, Nat.mod_eq_of_lt hfit]
  rw [perTopic_eq_share hS, hcapped]

theorem perTopic_uncapped (hS : 1 ≤ S) (hfit : N * S < Str.sizeRange) (h : lim = 0 ∨ N * S ≤ lim) :
    perTopic lim N S = N := by
  have htotal : (if 0 < lim then min lim (N * S) else N * S) = N * S := by
    rcases h with rfl | h
    · rfl
    · rw [Nat.min_eq_right h, ite_self]
  rw [perTopic_eq hS hfit, htotal, Nat.mul_div_cancel _ hS, Nat.mul_mod_left, Nat.add_zero]

theorem perTopic_capped (hS : 1 ≤ S) (hfit : N * S < Str.sizeRange) (hlim : 0 < lim) (h : lim < N * S) :
    perTopic lim N S = lim / S + lim % S := by
  rw [perTopic_eq hS hfit, if_pos hlim, Nat.min_eq_left (Nat.le_of_lt h)]

theorem share_mul (hS : 1 ≤ S) : (lim / S + lim % S) * S = lim + lim % S * (S - 1) := by
  have hdiv := Nat.div_add_mod lim S
  have hrest : lim % S * S = lim % S * (S - 1) + lim % S := by
    rw [← Nat.mul_succ, Nat.succ_eq_add_one, Nat.sub_add_cancel hS]
  calc (lim / S + lim % S) * S = S * (lim / S) + lim % S * S := by rw [Nat.add_mul, Nat.mul_comm (lim / S)]
    _ = lim + lim % S * (S - 1) := by omega

/-- When the budget is kept: the request is within the cap, or the cap divides evenly. From `2 ^ 31`
    processors on the cap has left the type `unsigned`: it is none at all, or so far below the number of
    processors that a remainder for each service may still fit. -/
def FitsBudget (hw N S : Nat) : Prop :=
  let lim := hw * 2 % 2 ^ 32
  if lim = 0 then N * S < 2 ^ 32
  else N * S ≤ lim ∨ S ∣ lim ∨ 2 ^ 31 < hw ∧ lim / S + lim % S ≤ N ∧ lim + lim % S * (S - 1) < 2 ^ 32

/-- Below `2 ^ 31` processors, the budget is kept when the request is within the cap or the number of
    services divides the cap. -/
theorem fitsBudget_iff (h1 : 1 ≤ hw) (h2 : hw < 2 ^ 31) : FitsBudget hw N S ↔ N * S ≤ 2 * hw ∨ S ∣ 2 * hw := by
  have hlim : hw * 2 % 2 ^ 32 = 2 * hw := by omega
  unfold FitsBudget
  simp only [hlim, if_neg (show 2 * hw ≠ 0 by omega)]
  have hno : ¬ 2 ^ 31 < hw := by omega
  simp only [hno, false_and, or_false]

/-- The counts that `init_server` leaves are within the budget, and its loop variable can count the threads. -/
structure KeepsBudget (lim N S hw : Nat) : Prop where
  returns : totalThreads lim N S < 2 ^ 32
  served : 1 ≤ perTopic lim N S
  request : perTopic lim N S ≤ N
  product : totalThreads lim N S = perTopic lim N S * S
  cap : totalThreads lim N S ≤ 2 * hw

theorem keepsBudget_uncapped (hN : 1 ≤ N) (hS : 1 ≤ S) (hfit : N * S < Str.sizeRange)
    (h : lim = 0 ∨ N * S ≤ lim) : KeepsBudget lim N S hw ↔ N * S < 2 ^ 32 ∧ N * S ≤ 2 * hw := by
  have hper := perTopic_uncapped hS hfit h
  have htotal : totalThreads lim N S = N * S := by rw [totalThreads, hper, Nat.mod_eq_of_lt hfit]
  refine ⟨fun k => ⟨htotal ▸ k.returns, htotal ▸ k.cap⟩, fun ⟨hret, hcap⟩ => ?_⟩
  exact ⟨by rwa [htotal], by rwa [hper], by rw [hper], by rw [htotal, hper], by rwa [htotal]⟩

theorem keepsBudget_capped (hS : 1 ≤ S) (hfit : N * S < Str.sizeRange) (hlim : 0 < lim) (h : lim < N * S) :
    KeepsBudget lim N S hw ↔ lim / S + lim % S ≤ N ∧ lim + lim % S * (S - 1) < 2 ^ 32 ∧
      lim + lim % S * (S - 1) ≤ 2 * hw := by
  have hsize : (2 : Nat) ^ 32 < Str.sizeRange := by decide
  have hper := perTopic_capped hS hfit hlim h
  have hmul : perTopic lim N S * S = lim + lim % S * (S - 1) := by rw [hper, share_mul hS]
  constructor
  · intro k
    have htotal := k.product.trans hmul
    exact ⟨hper ▸ k.request, htotal ▸ k.returns, htotal ▸ k.cap⟩
  · rintro ⟨hreq, hret, hcap⟩
    have hprod : totalThreads lim N S = perTopic lim N S * S :=
      Nat.mod_eq_of_lt (hmul ▸ Nat.lt_trans hret hsize)
    have htotal := hprod.trans hmul
    have hserved : 1 ≤ perTopic lim N S := by
      refine Nat.pos_of_ne_zero fun hzero => ?_
      rw [hzero, Nat.zero_mul] at hmul
      omega
    exact ⟨by rwa [htotal], hserved, by rwa [hper], hprod, by rwa [htotal]⟩

theorem rest_mul_eq_zero_iff (hS : 1 ≤ S) : lim % S * (S - 1) = 0 ↔ S ∣ lim := by
  rw [Nat.mul_eq_zero, Nat.dvd_iff_mod_eq_zero]
  refine ⟨fun h => h.elim id fun hone => ?_, Or.inl⟩
  rw [show S = 1 by omega, Nat.mod_one]

theorem keepsBudget_iff (hN : 1 ≤ N) (hS : 1 ≤ S) (h1 : 1 ≤ hw) (h2 : hw < 2 ^ 32)
    (hfit : N * S < Str.sizeRange) : KeepsBudget (hw * 2 % 2 ^ 32) N S hw ↔ FitsBudget hw N S := by
  unfold FitsBudget
  generalize hl : hw * 2 % 2 ^ 32 = lim
  have hlim : lim = 2 * hw ∧ hw < 2 ^ 31 ∨ lim = 2 * hw - 2 ^ 32 ∧ 2 ^ 31 ≤ hw := by omega
  simp only
  by_cases hfree : lim = 0 ∨ N * S ≤ lim
  · rw [keepsBudget_uncapped hN hS hfit hfree]
    split
    · exact ⟨fun h => h.1, fun h => ⟨h, by omega⟩⟩
    · have hle : N * S ≤ lim := by omega
      exact ⟨fun _ => Or.inl hle, fun _ => ⟨by omega, by omega⟩⟩
  · have hbite : lim < N * S := by omega
    have hper : lim / S ≤ N := Nat.div_le_of_le_mul (by rw [Nat.mul_comm]; exact Nat.le_of_lt hbite)
    have hextra : lim % S * (S - 1) = 0 ↔ S ∣ lim := rest_mul_eq_zero_iff hS
    rw [keepsBudget_capped hS hfit (by omega) hbite, if_neg (by omega)]
    by_cases hdvd : S ∣ lim
    · rw [hextra.mpr hdvd, Nat.mod_eq_zero_of_dvd hdvd]
      exact ⟨fun _ => Or.inr (Or.inl hdvd), fun _ => ⟨hper, by omega, by omega⟩⟩
    · -- The remainder is more than the cap allows, unless the cap is not that of the processors.
      have hmore : lim % S * (S - 1) ≠ 0 := fun h => hdvd (hextra.mp h)
      constructor
      · rintro ⟨hreq, hret, hcap⟩
        exact Or.inr (Or.inr ⟨by omega, hreq, hret⟩)
      · rintro (h | h | ⟨hbig, hreq, hret⟩)
        · omega
        · exact absurd h hdvd
        · exact ⟨hreq, hret, by omega⟩

end

/-- `init_server` returns, and leaves between one thread for each service and as many as asked for, as many
    threads as it counts, and no more of them than the cap. -/
def WithinBudget (host : Host) (p : Process) : Prop :=
  ∃ p', (initServer host).exec p = (.ok 0, p') ∧
    1 ≤ p'.server.nThreadsPerTopic ∧ p'.server.nThreadsPerTopic ≤ p.server.nThreadsPerTopic ∧
    p'.server.mTotalThreads = p'.server.nThreadsPerTopic * p.server.serviceNames.card ∧
    p'.server.threads.length = p'.server.mTotalThreads ∧
    p'.server.mTotalThreads ≤ 2 * host.hardwareConcurrency

/-- On a server without threads, `init_server` keeps the budget exactly when `FitsBudget` says so. -/
theorem initServer_withinBudget_iff {host : Host} {p : Process} (threads : p.server.threads = [])
    (request : 1 ≤ p.server.nThreadsPerTopic) (services : 1 ≤ p.server.serviceNames.card)
    (processors : 1 ≤ host.hardwareConcurrency)
    (fits : p.server.nThreadsPerTopic * p.server.serviceNames.card < Str.sizeRange) :
    WithinBudget host p ↔
      FitsBudget host.hardwareConcurrency p.server.nThreadsPerTopic p.server.serviceNames.card := by
  obtain ⟨returns, diverges⟩ := initServer_exec host p (by omega)
  rw [← keepsBudget_iff request services processors host.unsigned fits]
  constructor
  · rintro ⟨p', hexec, h1, hreq, hprod, -, hcap⟩
    have hlt : totalThreads (cpuLim host) p.server.nThreadsPerTopic p.server.serviceNames.card < 2 ^ 32 := by
      refine Nat.lt_of_not_le fun hle => ?_
      have hstuck := diverges hle
      rw [hexec] at hstuck
      cases hstuck
    obtain rfl : p' = ⟨initialized host p.server, p.cout⟩ := by
      rw [returns hlt] at hexec
      exact (Prod.mk.inj hexec).2.symm
    exact ⟨hlt, h1, hreq, hprod, hcap⟩
  · rintro ⟨hlt, h1, hreq, hprod, hcap⟩
    refine ⟨_, returns hlt, h1, hreq, hprod, ?_, hcap⟩
    show (p.server.threads ++ List.replicate _ _).length = _
    rw [threads, List.nil_append, List.length_replicate]
    rfl

def serving (n : Nat) (names : Finset Str) : Process :=
  ⟨{ Server.fresh 0 0 n 8000 with serviceNames := names }, []⟩

theorem initServer_withinBudget_iff_four :
    WithinBudget ⟨4, by decide, []⟩ (serving 5 {['a'], ['b']}) :=
  (@initServer_withinBudget_iff ⟨4, by decide, []⟩ (serving 5 {['a'], ['b']}) rfl (by decide) (by decide)
    (by decide) (by decide)).mpr (Or.inr (Or.inl (by decide)))

/-- Eight threads for three services become four for each of them. -/
theorem initServer_exceeds_cap :
    ((initServer ⟨4, by decide, []⟩).exec (serving 5 {['a'], ['b'], ['c']})).2.server.mTotalThreads = 12 ∧
    ¬ WithinBudget ⟨4, by decide, []⟩ (serving 5 {['a'], ['b'], ['c']}) := by
  obtain ⟨returns, -⟩ := initServer_exec ⟨4, by decide, []⟩ (serving 5 {['a'], ['b'], ['c']}) (by decide)
  have htotal : totalThreads (cpuLim ⟨4, by decide, []⟩) 5 3 = 12 := by decide
  have hexec := returns (by decide)
  refine ⟨by rw [hexec]; exact htotal, ?_⟩
  rintro ⟨p', hp', -, -, -, -, hcap⟩
  rw [hexec] at hp'
  obtain rfl := (Prod.mk.inj hp').2
  exact absurd hcap (by decide)

end ServiceBridge
