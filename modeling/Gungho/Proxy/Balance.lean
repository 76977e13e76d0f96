/-
Least connections while requests come and go. Requests that choose one at a time, but are otherwise in
flight together and end in any order, keep the counts level: with `n` backends in rotation and at most
`P` requests under way no backend ever has more than `P / n` connections, rounded up. Backends may
fail and recover meanwhile.
-/
import Gungho.Lib.Leveling
import Gungho.Proxy.Filling
import Gungho.Proxy.Guard

namespace Gungho.Proxy

open Gungho.Lib Gungho.Lb Gungho.Net Gungho.Pool

/-! ## Requests under way -/

/-- The request has its snapshot and not yet its guard. -/
def Handling.choosing : Handling → Bool
  | .selecting _ _ _ => true
  | .guarding _ _ _ => true
  | _ => false

/-- The request has its snapshot and may take a guard, or holds one. -/
def Handling.underWay (t : Handling) : Bool := t.choosing || t.guard.isSome

/-- At least `n` of the backends are in rotation, one request at a time chooses, and at most `P` are under way. -/
def Light (backends : List Backend) (n P : ℕ) (s : Threads Proxy Handling) : Prop :=
  s.shared.pool.healthyBackends.Sublist backends ∧ n ≤ s.shared.pool.healthyBackends.length ∧
    s.threads.countP Handling.choosing ≤ 1 ∧ s.threads.countP Handling.underWay ≤ P

instance (backends : List Backend) (n P : ℕ) (s : Threads Proxy Handling) : Decidable (Light backends n P s) :=
  inferInstanceAs (Decidable (_ ∧ _ ∧ _ ∧ _))

/-! ## What a choosing request knows -/

/-- A call of `select` on the snapshot: its loop has weighed the loads it read, its result holds at most the average. -/
def Weighs (w total : ℕ) (load : Backend → ℕ) (healthy : List Backend) : Call → Prop
  | .enter backends _ _ => backends = healthy ∧ (healthy.map load).sum ≤ total
  | .scan rest least => ∃ k ≤ healthy.length, rest = (healthy.drop k).zipIdx k ∧ (k = 0 → least.2 = 2 ^ w - 1) ∧
      Scanning total load healthy k least.1 least.2
  | .done (.ok (some i)) => ∃ b, healthy[i]? = some b ∧ load b * healthy.length ≤ total
  | _ => True

/-- The backend that a request is about to take a guard on has at most the average of `n` loads. -/
def Levels (w n total : ℕ) (load : Backend → ℕ) : Handling → Prop
  | .selecting _ healthy call => n ≤ healthy.length ∧ Weighs w total load healthy call
  | .guarding b _ _ => load b * n ≤ total
  | _ => True

section

variable {w n total : ℕ} {load load' : Backend → ℕ} {healthy : List Backend}

theorem weighs_mono (hload : ∀ b, load' b ≤ load b) {call : Call} (h : Weighs w total load healthy call) :
    Weighs w total load' healthy call := by
  cases call with
  | enter backends clientAddr rng =>
    obtain ⟨hb, hsum⟩ := h
    exact ⟨hb, (List.sum_le_sum fun b _ => hload b).trans hsum⟩
  | scan rest least =>
    obtain ⟨k, hk, hrest, hfirst, hscan⟩ := h
    exact ⟨k, hk, hrest, hfirst, hscan.mono hload⟩
  | done result =>
    rcases result with panic | _ | i
    · trivial
    · trivial
    · obtain ⟨b, hb, hle⟩ := h
      exact ⟨b, hb, (Nat.mul_le_mul_right _ (hload b)).trans hle⟩
  | _ => trivial

theorem levels_mono (hload : ∀ b, load' b ≤ load b) {t : Handling} (h : Levels w n total load t) :
    Levels w n total load' t := by
  cases t with
  | selecting req healthy call =>
    obtain ⟨hn, hcall⟩ := h
    exact ⟨hn, weighs_mono hload hcall⟩
  | guarding b uri headers => exact (Nat.mul_le_mul_right _ (hload b)).trans h
  | _ => trivial

theorem levels_of_not_choosing {t : Handling} (h : t.choosing = false) : Levels w n total load t := by
  cases t with
  | selecting req healthy call => cases h
  | guarding b uri headers => cases h
  | _ => trivial

/-- The next load of the loop, the next step of the call. -/
theorem weighs_next {mem : Mem} (hmem : ∀ b : Backend, b.getActiveConnections mem = load b) (htotal : total < 2 ^ w - 1)
    (hne : healthy ≠ []) {call : Call} (h : Weighs w total load healthy call) :
    Weighs w total load healthy (call.nextLeast w mem) := by
  cases call with
  | enter backends clientAddr rng =>
    obtain ⟨rfl, hsum⟩ := h
    rw [Call.nextLeast, if_neg (by simpa using hne)]
    exact ⟨0, Nat.zero_le _, rfl, fun _ => rfl, scanning_start hsum _ _⟩
  | scan rest least =>
    obtain ⟨best, value⟩ := least
    obtain ⟨k, hk, rfl, hfirst, hscan⟩ := h
    rcases hdrop : healthy.drop k with _ | ⟨b, rest⟩
    · have hlen : k = healthy.length := Nat.le_antisymm hk (List.drop_eq_nil_iff.1 hdrop)
      subst hlen
      exact hscan.chosen hne
    · obtain ⟨hb, hrest⟩ := drop_cons hdrop
      have hlt : k < healthy.length := (List.getElem?_eq_some_iff.1 hb).1
      rw [List.zipIdx_cons, Call.nextLeast]
      rcases visit_cases mem (best, value) b k with ⟨hlow, hvisit⟩ | ⟨hhigh, hvisit⟩ <;> rw [hvisit]
      · rw [show mem.activeConnections b.id = load b from hmem b] at hlow ⊢
        exact ⟨k + 1, hlt, by rw [hrest], fun h => absurd h (Nat.succ_ne_zero k), hscan.lower hb fun _ => hlow.le⟩
      · rw [show mem.activeConnections b.id = load b from hmem b] at hhigh
        -- before the first load the value is `usize::MAX`, which no backend has reached
        have hpos : 0 < k := by
          rcases Nat.eq_zero_or_pos k with rfl | hpos
          · have hweighed := hscan.weighed
            rw [sum_drop hb] at hweighed
            have hvalue : value = 2 ^ w - 1 := hfirst rfl
            have hhigh : value ≤ load b := hhigh
            omega
          · exact hpos
        exact ⟨k + 1, hlt, by rw [hrest], fun h => absurd h (Nat.succ_ne_zero k), hscan.keep hb hpos hhigh⟩
  | _ => exact h

/-- From the result of the call to the backend to take a guard on. -/
theorem levels_chosen {parseUri : Text → Option Uri} {req : Request} (hn : n ≤ healthy.length)
    {result : Except Lb.Panic (Option ℕ)} (h : Weighs w total load healthy (.done result)) :
    Levels w n total load (chosen parseUri req healthy result) := by
  rcases result with panic | _ | i
  · trivial
  · trivial
  · obtain ⟨b, hb, hle⟩ := h
    simp only [chosen, hb]
    split
    · trivial
    · split
      · trivial
      · exact (Nat.mul_le_mul_left _ hn).trans hle

end

/-! ## Connections as loads -/

/-- The connections to different backends are no more than the requests that hold a guard. -/
theorem sum_held_le {healthy : List Backend} (hids : (healthy.map Backend.id).Nodup) (ts : List Handling) :
    (healthy.map fun b => held b ts).sum ≤ ts.countP fun t => t.guard.isSome := by
  have h := sum_countP_le hids (fun t : Handling => t.guard.map Backend.id) ts
  have hheld : ∀ b : Backend, held b ts = ts.countP fun t => t.guard.map Backend.id = some b.id := fun b =>
    List.countP_congr fun t _ => by
      unfold Handling.holds
      rcases t.guard with _ | c <;> simp
  simp only [List.map_map, Function.comp_def, ← hheld, Option.isSome_map] at h
  exact h

/-- A request under way without a guard leaves one guard less to the others. -/
theorem guards_lt {pre post : List Handling} {t : Handling} {P : ℕ} (hchoosing : t.choosing = true)
    (hguard : t.guard = none) (h : (pre ++ t :: post).countP Handling.underWay ≤ P) :
    ((pre ++ t :: post).countP fun t => t.guard.isSome) ≤ P - 1 := by
  have hothers : ((pre ++ post).countP fun t => t.guard.isSome) ≤ (pre ++ post).countP Handling.underWay :=
    List.countP_mono_left fun u _ hu => Bool.or_eq_true_iff.2 (.inr hu)
  have hself : t.underWay = true := Bool.or_eq_true_iff.2 (.inl hchoosing)
  rw [List.countP_append] at hothers h ⊢
  rw [List.countP_append] at hothers
  rw [List.countP_cons, if_pos hself] at h
  rw [List.countP_cons, hguard, Option.isSome_none, if_neg Bool.false_ne_true]
  omega

/-! ## Runs -/

/-- The state of a run: every count is within the bound, and what a choosing request knows keeps it there. -/
structure Leveled (w n P : ℕ) (s : Threads Proxy Handling) : Prop where
  strategy : s.shared.strategy = .leastConnections
  counts : ∀ b : Backend, b.getActiveConnections s.shared.pool.mem = held b s.threads % 2 ^ w
  single : s.threads.countP Handling.choosing ≤ 1
  levels : ∀ t ∈ s.threads, Levels w n (P - 1) (fun b => held b s.threads) t
  bound : ∀ b, held b s.threads ≤ (P - 1) / n + 1

section

variable {w n P : ℕ} {parseUri : Text → Option Uri} {s s' : Proxy} {pre post : List Handling} {t t' : Handling}

theorem leveled_idle {p : Proxy} (hleast : p.strategy = .leastConnections)
    (hzero : ∀ b : Backend, b.getActiveConnections p.pool.mem = 0) : Leveled w n P (idle p) where
  strategy := hleast
  counts b := (hzero b).trans (Nat.zero_mod _).symm
  single := Nat.zero_le _
  levels t ht := by cases ht
  bound b := Nat.zero_le _

/-- The counts are the requests' guards as long as these fit a `usize`. -/
theorem Leveled.active {s : Threads Proxy Handling} (h : Leveled w n P s) (hP : 0 < P) (hfit : P < 2 ^ w) (b : Backend)
    : b.getActiveConnections s.shared.pool.mem = held b s.threads := by
  have hle : held b s.threads ≤ P := by
    have := h.bound b
    have := Nat.div_le_self (P - 1) n
    omega
  exact (h.counts b).trans (Nat.mod_eq_of_lt (hle.trans_lt hfit))

theorem counts_next (parseUri : Text → Option Uri) (c : Choice) {s : Threads Proxy Handling}
    (h : ∀ b : Backend, b.getActiveConnections s.shared.pool.mem = held b s.threads % 2 ^ w) (b : Backend) :
    b.getActiveConnections (serving w parseUri s c).2.shared.pool.mem =
      held b (serving w parseUri s c).2.threads % 2 ^ w := by
  have hcond : StepCond (fun _ _ _ => True) s c := by cases c <;> simp [StepCond]
  have hbalanced : Lib.Balanced (Counts w b 0) (fun t => if t.holds b then 1 else 0) s := by
    unfold Lib.Balanced Counts
    rw [sum_indicator, Nat.zero_add]
    exact h b
  have hnext := balanced_interleave (accounted_guards w parseUri b 0) ⟨trivial, fun _ _ => trivial⟩ hbalanced hcond
  unfold Lib.Balanced Counts at hnext
  rw [sum_indicator, Nat.zero_add] at hnext
  exact hnext

theorem held_middle (b : Backend) (pre post : List Handling) (t : Handling) :
    held b (pre ++ t :: post) = held b (pre ++ post) + if t.holds b then 1 else 0 := by
  unfold held
  rw [List.countP_append, List.countP_append, List.countP_cons, Nat.add_assoc]

/-- A step that takes no guard leaves the others what they know. -/
theorem levels_replace {total : ℕ} (hholds : ∀ b, t'.holds b = true → t.holds b = true)
    (h : ∀ u ∈ pre ++ t :: post, Levels w n total (fun b => held b (pre ++ t :: post)) u)
    (hown : Levels w n total (fun b => held b (pre ++ t' :: post)) t') :
    (∀ b, held b (pre ++ t' :: post) ≤ held b (pre ++ t :: post)) ∧
      ∀ u ∈ pre ++ t' :: post, Levels w n total (fun b => held b (pre ++ t' :: post)) u := by
  have hle : ∀ b, held b (pre ++ t' :: post) ≤ held b (pre ++ t :: post) := fun b => by
    rw [held_middle, held_middle]
    have := hholds b
    split
    · rename_i ht'
      rw [if_pos (this ht')]
    · omega
  refine ⟨hle, ?_⟩
  rintro u hu
  rcases mem_middle hu with rfl | hu
  · exact hown
  · exact levels_mono hle (h u hu)

/-- While one request chooses the others do not. -/
theorem not_choosing_of_single (h : (pre ++ t :: post).countP Handling.choosing ≤ 1) (ht : t.choosing = true) :
    ∀ u ∈ pre ++ post, u.choosing = false := by
  rintro u hu
  have hnone : (pre ++ post).countP Handling.choosing = 0 := by
    rw [List.countP_append, List.countP_cons, if_pos ht] at h
    rw [List.countP_append]
    omega
  simpa using List.countP_eq_zero.1 hnone u hu

/-- What the step of a request does to its own knowledge. -/
theorem levels_own {backends : List Backend} (harcs : (backends.map Backend.id).Nodup) (hn : 0 < n) (hP : 0 < P)
    (hfit : P < 2 ^ w) (h : Leveled w n P ⟨s, pre ++ t :: post⟩) {i : Input} (hmoved : Moved w parseUri s t i s' t')
    (hlight : Light backends n P ⟨s', pre ++ t' :: post⟩) (hguard : t'.guard = t.guard) :
    Levels w n (P - 1) (fun b => held b (pre ++ t' :: post)) t' := by
  have hsame : ∀ b, held b (pre ++ t' :: post) = held b (pre ++ t :: post) := fun b => by
    rw [held_middle, held_middle, Handling.holds, hguard]
    rfl
  have hown : Levels w n (P - 1) (fun b => held b (pre ++ t' :: post)) t :=
    levels_mono (fun b => (hsame b).le) (h.levels t (by simp))
  have hactive : ∀ b : Backend, b.getActiveConnections s.pool.mem = held b (pre ++ t' :: post) := fun b =>
    (h.active hP hfit b).trans (hsame b).symm
  obtain ⟨hsub, hlen, -, hfew⟩ := hlight
  cases hmoved with
  | stay => exact hown
  | snapshot req rng elapsed =>
    have hids : (s.pool.healthyBackends.map Backend.id).Nodup := harcs.sublist (hsub.map _)
    exact ⟨hlen, rfl, (sum_held_le hids _).trans (guards_lt rfl rfl hfew)⟩
  | @select req healthy call hr elapsed =>
    obtain ⟨hhealthy, hcall⟩ := hown
    have hne : healthy ≠ [] := List.length_pos_iff.1 (hn.trans_le hhealthy)
    have hnext : call.next w s.pool.mem s.strategy = (.leastConnections, call.nextLeast w s.pool.mem) := by
      rw [show s.strategy = .leastConnections from h.strategy]
      cases call <;> rfl
    rw [hnext] at hactive hcall ⊢
    exact ⟨hhealthy, weighs_next hactive (by omega) hne hcall⟩
  | @choose req healthy call result hr elapsed =>
    obtain ⟨hhealthy, hcall⟩ := hown
    cases call with
    | done result' =>
      cases hr
      exact levels_chosen hhealthy hcall
    | _ => cases hr
  | relay exit i => exact trivial
  | guard b uri headers elapsed => cases hguard
  | _ => trivial

/-- The guard that a request takes. Nobody else chooses, and its backend had at most the average. -/
theorem leveled_guard (hn : 0 < n) {b : Backend} {headers : HeaderMap}
    (h : Leveled w n P ⟨s, pre ++ .guarding b uri headers :: post⟩) :
    (∀ u ∈ pre ++ .awaiting b uri headers :: post,
        Levels w n (P - 1) (fun c => held c (pre ++ .awaiting b uri headers :: post)) u) ∧
      ∀ c, held c (pre ++ .awaiting b uri headers :: post) ≤ (P - 1) / n + 1 := by
  constructor
  · rintro u hu
    have hidle := not_choosing_of_single h.single rfl
    refine levels_of_not_choosing ?_
    rcases mem_middle (t := .awaiting b uri headers) hu with rfl | hu
    · rfl
    · rcases List.mem_append.1 hu with hu | hu
      · exact hidle u (List.mem_append_left _ hu)
      · rcases List.mem_cons.1 hu with rfl | hu
        · rfl
        · exact hidle u (List.mem_append_right _ hu)
  · rintro c
    have hlow : held b (pre ++ .guarding b uri headers :: post) * n ≤ P - 1 :=
      h.levels (.guarding b uri headers) (by simp)
    have hbound := h.bound c
    rw [held_middle, holds_none rfl, if_neg Bool.false_ne_true, Nat.add_zero] at hlow hbound
    rw [held_middle, holds_some (show (Handling.awaiting b uri headers).guard = some b from rfl)]
    split
    · rename_i hcb
      have hheld : held c (pre ++ post) = held b (pre ++ post) := by
        unfold held Handling.holds
        rw [of_decide_eq_true hcb]
      rw [hheld]
      exact Nat.succ_le_succ ((Nat.le_div_iff_mul_le hn).2 hlow)
    · exact hbound

theorem leveled_moved {backends : List Backend} (harcs : (backends.map Backend.id).Nodup) (hn : 0 < n) (hP : 0 < P)
    (hfit : P < 2 ^ w) (h : Leveled w n P ⟨s, pre ++ t :: post⟩) {i : Input} (hmoved : Moved w parseUri s t i s' t')
    (hlight : Light backends n P ⟨s', pre ++ t' :: post⟩) :
    (∀ u ∈ pre ++ t' :: post, Levels w n (P - 1) (fun b => held b (pre ++ t' :: post)) u) ∧
      ∀ b, held b (pre ++ t' :: post) ≤ (P - 1) / n + 1 := by
  by_cases hguard : t'.guard = t.guard
  · have hown := levels_own harcs hn hP hfit h hmoved hlight hguard
    obtain ⟨hle, hlevels⟩ := levels_replace (fun b hb => by rwa [Handling.holds, hguard] at hb) h.levels hown
    exact ⟨hlevels, fun b => (hle b).trans (h.bound b)⟩
  · cases hmoved with
    | guard b uri headers elapsed => exact leveled_guard hn h
    | release guard exit elapsed =>
      have hfree : ∀ b, (Handling.ended exit).holds b = true → (Handling.leaving guard exit).holds b = true :=
        fun b hb => by cases hb
      obtain ⟨hle, hlevels⟩ := levels_replace hfree h.levels trivial
      exact ⟨hlevels, fun b => (hle b).trans (h.bound b)⟩
    | choose req healthy hr elapsed => exact absurd (chosen_guard parseUri req healthy _) hguard
    | _ => exact absurd rfl hguard

theorem leveled_step {backends : List Backend} (harcs : (backends.map Backend.id).Nodup) (hn : 0 < n) (hP : 0 < P)
    (hfit : P < 2 ^ w) (s : Threads Proxy Handling) (choice : Choice) (h : Leveled w n P s)
    (hlight : Light backends n P (serving w parseUri s choice).2) : Leveled w n P (serving w parseUri s choice).2 := by
  have hcounts := fun b => counts_next parseUri choice h.counts b
  unfold serving at hlight hcounts ⊢
  rcases interleave_cases s choice with ⟨e, rfl, hs⟩ | ⟨r, rfl, hs⟩ | ⟨k, i, rfl, -, hs⟩ |
    ⟨pre, t, post, i, rfl, ht, hs⟩ <;> rw [hs] at hlight hcounts ⊢
  · refine ⟨?_, hcounts, h.single, h.levels, h.bound⟩
    cases e <;> exact h.strategy
  · have hheld : ∀ b, held b (s.threads ++ [Handling.start r.1 r.2]) = held b s.threads := fun b => by
      unfold held
      rw [List.countP_append]
      rfl
    refine ⟨h.strategy, hcounts, hlight.2.2.1, ?_, fun b => (hheld b).le.trans (h.bound b)⟩
    rintro u hu
    rcases List.mem_append.1 hu with hu | hu
    · exact levels_mono (fun b => (hheld b).le) (h.levels u hu)
    · rw [List.mem_singleton.1 hu]
      trivial
  · exact h
  · obtain ⟨shared, threads⟩ := s
    cases ht
    have hmoved := handleRequest_moved w parseUri shared t i
    obtain ⟨hlevels, hbound⟩ := leveled_moved harcs hn hP hfit h hmoved hlight
    exact ⟨(hmoved.steady h.strategy).1, hcounts, hlight.2.2.1, hlevels, hbound⟩

end

/-! ## The result -/

/-- In every state of every run of least connections on a fresh pool in which one request at a time chooses, at most
`P` are under way and at least `n` backends are in rotation, no backend has more connections than `P / n` rounded up. -/
theorem active_le_share (w : ℕ) (parseUri : Text → Option Uri) (p : Proxy) (hleast : p.strategy = .leastConnections)
    (hzero : ∀ b : Backend, b.getActiveConnections p.pool.mem = 0) {n P : ℕ} (hn : 0 < n) (hP : 0 < P)
    (hfit : P < 2 ^ w) (choices : List Choice)
    (hlight : Along (serving w parseUri)
      (fun s choice => Light p.pool.backends n P (serving w parseUri s choice).2) (idle p) choices)
    (b : Backend) :
    b.getActiveConnections (run (serving w parseUri) (idle p) choices).2.shared.pool.mem ≤ (P - 1) / n + 1 := by
  have hleveled := inv_run (Leveled w n P)
    (fun s choice => leveled_step p.pool.arcs hn hP hfit s choice) choices (idle p)
    (leveled_idle hleast hzero) hlight
  rw [hleveled.active hP hfit b]
  exact hleveled.bound b

/-- Of four requests that choose one after the other the second one ends before the fourth has arrived. -/
theorem active_le_share_pair :
    let p : Proxy := ⟨.pair, .leastConnections, .new⟩
    let req : Request × RandomRange := (⟨.v4 ⟨192, 168, 1, 1⟩ 1234, none, ⟨[]⟩⟩, .lowest)
    let arrival : ℕ → List Choice := fun k => .spawn req :: List.replicate 7 (.step k (.go 0))
    let choices := arrival 0 ++ arrival 1 ++ arrival 2 ++ [.step 1 .cancel, .step 1 (.go 0)] ++ arrival 3
    Backend.getActiveConnections ⟨1, .v4 ⟨10, 0, 0, 2⟩ 80, 1⟩
      (run (serving 64 Uri.accept) (idle p) choices).2.shared.pool.mem ≤ (3 - 1) / 2 + 1 := by
  intro p req arrival choices
  exact active_le_share 64 _ p rfl (fun _ => rfl) (by decide) (by decide) (by decide) choices (by decide) _

end Gungho.Proxy
