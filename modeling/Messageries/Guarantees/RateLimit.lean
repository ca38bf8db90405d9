import Messageries.Concurrency.Runs
import Messageries.Gateway.RateLimit

namespace Messageries.Guarantees.RateLimit

open Text Moderation Concurrency Gateway.RateLimit Gateway.RateLimit.Limiter

variable {limit : Nat} {g : Limiter} {a : Act}

/-- What a check answers once Redis took its INCR. -/
def accepted (limit : Nat) (g : Limiter) (call : Nat) : Bool :=
  (g.checks call).any fun c => c.stage.accepts limit

/-- The counter of a minute that is not over counts its checks and does not expire before its
end, and the checks that Redis took for a minute are accepted up to the limit. -/
structure Counts (limit : Nat) (g : Limiter) : Prop where
  late : ∀ call c, g.checks call = some c → c.stage ≠ .sent → c.window * 60000 ≤ g.clock
  counted : ∀ call user window, call ∈ g.taken (user, window) →
    ∃ s, g.checks call = some ⟨user, window, s⟩ ∧ s ≠ .sent
  value : ∀ user window, g.clock < (window + 1) * 60000 →
    g.valueOf (keyOf user window) = (g.taken (user, window)).length
  expires : ∀ user window, g.clock < (window + 1) * 60000 →
    ∀ c ∈ g.keys (keyOf user window), ∀ t ∈ c.expires, (window + 1) * 60000 ≤ t
  accepted : ∀ user window, (g.taken (user, window)).map (accepted limit g) =
    (List.range (g.taken (user, window)).length).map fun n => decide (n + 1 ≤ limit)

theorem counts_start : Counts limit start where
  late := nofun
  counted := nofun
  value _ _ _ := rfl
  expires := nofun
  accepted _ _ := rfl

/-- A check may go on if its answer stays. -/
theorem Counts.set (h : Counts limit g) {call : Nat} {c : Check}
    (hc : ∀ c', g.checks call = some c' → c'.stage ≠ .sent → c.stage ≠ .sent ∧
      c.user = c'.user ∧ c.window = c'.window ∧ c.stage.accepts limit = c'.stage.accepts limit)
    (hl : c.stage ≠ .sent → c.window * 60000 ≤ g.clock) : Counts limit (g.set call c) := by
  have kept : ∀ user window, ∀ other ∈ g.taken (user, window),
      ∃ s, (g.set call c).checks other = some ⟨user, window, s⟩ ∧ s ≠ .sent ∧
        RateLimit.accepted limit (g.set call c) other = RateLimit.accepted limit g other := by
    intro user window other ho
    obtain ⟨s, hs, hne⟩ := h.counted other user window ho
    by_cases e : other = call
    · subst e
      obtain ⟨hne', hu, hw, ha⟩ := hc _ hs hne
      obtain ⟨user', window', s'⟩ := c
      obtain rfl : user' = user := hu
      obtain rfl : window' = window := hw
      exact ⟨s', set_self .., hne', by simpa [RateLimit.accepted, hs] using ha⟩
    · exact ⟨s, by rw [set_of_ne e, hs], hne, by rw [RateLimit.accepted, set_of_ne e]; rfl⟩
  exact {
    late := fun other c' h' hne => by
      by_cases e : other = call
      · subst e
        rw [set_self] at h'
        obtain rfl := Option.some.inj h'
        exact hl hne
      · rw [set_of_ne e] at h'
        exact h.late other c' h' hne
    counted := fun other user window ho => by
      obtain ⟨s, hs, hne, -⟩ := kept user window other ho
      exact ⟨s, hs, hne⟩
    value := h.value
    expires := h.expires
    accepted := fun user window => by
      refine Eq.trans ?_ (h.accepted user window)
      exact List.map_congr_left fun other ho => (kept user window other ho).choose_spec.2.2 }

/-- An INCR that Redis takes in its minute. -/
theorem Counts.count (h : Counts limit g) {call : Nat} {user : Utf16} {window : Nat}
    (hs : g.checks call = some ⟨user, window, .sent⟩) (hw : window = g.clock / 60000) :
    Counts limit (g.count call user window) := by
  have checked : ∀ other, other ≠ call →
      (g.count call user window).checks other = g.checks other := fun other e => set_of_ne e _
  have self : (g.count call user window).checks call =
      some ⟨user, window, .counted (g.valueOf (keyOf user window) + 1)⟩ := set_self ..
  have other_of_taken : ∀ k, ∀ other ∈ g.taken k, other ≠ call := by
    rintro ⟨user', window'⟩ other ho rfl
    obtain ⟨s, hs', hne⟩ := h.counted other user' window' ho
    rw [hs] at hs'
    cases hs'
    exact hne rfl
  have taken_self : (g.count call user window).taken (user, window) =
      g.taken (user, window) ++ [call] := Function.update_self ..
  have taken_of_ne : ∀ k, k ≠ (user, window) → (g.count call user window).taken k = g.taken k :=
    fun k e => Function.update_of_ne e ..
  have key_self : (g.count call user window).keys (keyOf user window) =
      some ⟨g.valueOf (keyOf user window) + 1, (g.keys (keyOf user window)).bind Counter.expires⟩ :=
    Function.update_self ..
  have key_of_ne : ∀ user' window', (user', window') ≠ (user, window) →
      (g.count call user window).keys (keyOf user' window') = g.keys (keyOf user' window') := by
    refine fun user' window' e => Function.update_of_ne (fun same => e ?_) ..
    obtain ⟨rfl, rfl⟩ := keyOf_inj same
    rfl
  refine ⟨fun other c hc hne => ?_, fun other user' window' ho => ?_,
    fun user' window' hlt => ?_, fun user' window' hlt c hc t ht => ?_, fun user' window' => ?_⟩
  · by_cases e : other = call
    · rw [e, self] at hc
      obtain rfl := Option.some.inj hc
      exact hw ▸ Nat.div_mul_le_self ..
    · rw [checked other e] at hc
      exact h.late other c hc hne
  · by_cases e : (user', window') = (user, window)
    · cases e
      rw [taken_self, List.mem_append, List.mem_singleton] at ho
      rcases ho with ho | rfl
      · rw [checked other (other_of_taken _ other ho)]
        exact h.counted other user window ho
      · exact ⟨_, self, Stage.noConfusion⟩
    · rw [taken_of_ne _ e] at ho
      rw [checked other (other_of_taken _ other ho)]
      exact h.counted other user' window' ho
  · have before := h.value user' window' hlt
    by_cases e : (user', window') = (user, window)
    · cases e
      rw [valueOf, key_self, taken_self, List.length_append, ← before]
      rfl
    · rw [valueOf, key_of_ne _ _ e, taken_of_ne _ e]
      exact before
  · by_cases e : (user', window') = (user, window)
    · cases e
      rw [key_self] at hc
      obtain rfl := Option.some.inj hc
      obtain ⟨c', hc', ht⟩ := Option.bind_eq_some_iff.1 ht
      exact h.expires user window hlt c' hc' t ht
    · rw [key_of_ne _ _ e] at hc
      exact h.expires user' window' hlt c hc t ht
  · have same : ∀ k, (g.taken k).map (RateLimit.accepted limit (g.count call user window)) =
        (g.taken k).map (RateLimit.accepted limit g) := fun k =>
      List.map_congr_left fun other ho => by
        rw [RateLimit.accepted, checked other (other_of_taken k other ho)]
        rfl
    by_cases e : (user', window') = (user, window)
    · cases e
      have inUse : g.clock < (window + 1) * 60000 := by omega
      have answer : RateLimit.accepted limit (g.count call user window) call =
          decide ((g.taken (user, window)).length + 1 ≤ limit) := by
        rw [RateLimit.accepted, self, h.value user window inUse]
        rfl
      rw [taken_self, List.map_append, same, h.accepted, List.length_append, List.length_singleton,
        List.range_succ, List.map_append, List.map_singleton, List.map_singleton, answer]
    · rw [taken_of_ne _ e, same, h.accepted]

theorem outlasts {window now : Nat} (h : window * 60000 ≤ now) :
    (window + 1) * 60000 ≤ now + 65 * 1000 := by
  rw [Nat.succ_mul]
  exact Nat.add_le_add h (by decide)

/-- EXPIRE for a check that Redis counted gives the counter 65 seconds from now. -/
theorem Counts.touch (h : Counts limit g) {user : Utf16} {window : Nat}
    (hw : window * 60000 ≤ g.clock) : Counts limit (g.touch (keyOf user window)) := by
  have key_self : (g.touch (keyOf user window)).keys (keyOf user window) =
      (g.keys (keyOf user window)).map fun c => { c with expires := some (g.clock + 65 * 1000) } :=
    Function.update_self ..
  have key_of_ne : ∀ user' window', (user', window') ≠ (user, window) →
      (g.touch (keyOf user window)).keys (keyOf user' window') = g.keys (keyOf user' window') := by
    refine fun user' window' e => Function.update_of_ne (fun same => e ?_) ..
    obtain ⟨rfl, rfl⟩ := keyOf_inj same
    rfl
  refine ⟨h.late, h.counted, fun user' window' hlt => ?_, fun user' window' hlt c hc t ht => ?_,
    h.accepted⟩
  · refine Eq.trans ?_ (h.value user' window' hlt)
    by_cases e : (user', window') = (user, window)
    · cases e
      rw [valueOf, key_self, valueOf]
      cases g.keys (keyOf user window) <;> rfl
    · rw [valueOf, key_of_ne _ _ e, valueOf]
  · by_cases e : (user', window') = (user, window)
    · cases e
      rw [key_self] at hc
      obtain ⟨c', -, rfl⟩ := Option.map_eq_some_iff.1 hc
      have expiry : g.clock + 65 * 1000 = t := Option.some.inj ht
      rw [← expiry]
      exact outlasts hw
    · rw [key_of_ne _ _ e] at hc
      exact h.expires user' window' hlt c hc t ht

theorem Counts.tick (h : Counts limit g) (ms : Nat) : Counts limit (g.tick ms) := by
  have kept : ∀ user window, g.clock + ms < (window + 1) * 60000 →
      (g.tick ms).keys (keyOf user window) = g.keys (keyOf user window) := by
    intro user window hlt
    have outlives := h.expires user window (by omega)
    simp only [Limiter.tick]
    cases hk : g.keys (keyOf user window) with
    | none => rfl
    | some c =>
      refine Option.filter_some_pos ((Option.all_eq_true ..).2 fun t ht => ?_)
      exact decide_eq_true (Nat.lt_of_lt_of_le hlt (outlives c hk t ht))
  refine ⟨fun call c hc hne => ?_, h.counted, fun user window hlt => ?_,
    fun user window hlt c hc t ht => ?_, h.accepted⟩
  · exact Nat.le_trans (h.late call c hc hne) (Nat.le_add_right ..)
  · rw [valueOf, kept user window hlt]
    exact h.value user window (Nat.lt_of_le_of_lt (Nat.le_add_right ..) hlt)
  · rw [kept user window hlt] at hc
    exact h.expires user window (Nat.lt_of_le_of_lt (Nat.le_add_right ..) hlt) c hc t ht

theorem Counts.step (h : Counts limit g) (a : Act) (hp : Punctual g a) :
    Counts limit (g.step limit a) := by
  rcases @step_cases limit g a with e | ⟨call, user, rfl, hs, e⟩ | ⟨call, user, window, rfl, hs, e⟩ |
    ⟨call, user, window, s, s', hs, hne, hne', ha, e⟩ | ⟨call, user, window, c, hs, e⟩ | ⟨ms, e⟩
  · rwa [e]
  · rw [e]
    exact h.set (fun c' hc' => by rw [hs] at hc'; cases hc') fun hne => absurd rfl hne
  · rw [e]
    exact h.count hs (hp call _ rfl hs rfl)
  · rw [e]
    refine h.set (fun c' hc' _ => ?_) fun _ => h.late call ⟨user, window, s⟩ hs hne
    rw [hs] at hc'
    obtain rfl := Option.some.inj hc'
    exact ⟨hne', rfl, rfl, ha⟩
  · rw [e]
    have late := h.late call _ hs Stage.noConfusion
    refine (h.touch late).set (fun c' hc' _ => ?_) fun _ => late
    rw [touch_checks, hs] at hc'
    obtain rfl := Option.some.inj hc'
    exact ⟨Stage.noConfusion, rfl, rfl, rfl⟩
  · rw [e]
    exact h.tick ms

theorem counts (hr : Runs (Limiter.step limit) Punctual Limiter.start g) : Counts limit g :=
  hr.invariant counts_start fun _ a h hp => h.step a hp

theorem countP_range_lt (n limit : Nat) :
    (List.range n).countP (fun k => decide (k + 1 ≤ limit)) = min n limit := by
  induction n with
  | zero => simp
  | succ n ih =>
    rw [List.range_succ, List.countP_append, ih, List.countP_singleton]
    by_cases hn : n + 1 ≤ limit
    · simp [hn]
      omega
    · simp [hn]
      omega

/-- In every minute the limiter accepts as many checks of a user as there are, up to the limit,
and while the minute lasts the counter is the number of its checks. -/
theorem window_limited (hr : Runs (Limiter.step limit) Punctual Limiter.start g) (user : Utf16)
    (window : Nat) :
    (g.taken (user, window)).countP (accepted limit g) =
        min (g.taken (user, window)).length limit ∧
      (g.clock < (window + 1) * 60000 →
        g.valueOf (keyOf user window) = (g.taken (user, window)).length) := by
  have h := counts hr
  refine ⟨?_, h.value user window⟩
  have answers := congrArg (List.countP id) (h.accepted user window)
  rw [List.countP_map, List.countP_map] at answers
  exact answers.trans (countP_range_lt _ limit)

def punctual (g : Limiter) : Act → Bool
  | .incr call => (g.checks call).all fun c => c.stage != .sent || c.window == g.clock / 60000
  | _ => true

theorem punctual_sound (g : Limiter) (a : Act) (h : punctual g a = true) : Punctual g a := by
  rintro call c rfl hc hs
  simpa [punctual, hc, hs] using h

/-- Two checks under a limit of 1; the counter gets its 65 seconds at the end of the minute. -/
def lateExpiry : List Act :=
  [.check 0 (text "u"), .check 1 (text "u"), .incr 0, .incr 1, .resume 1, .resume 0, .tick 59999,
    .expire 0, .resume 0]

theorem window_limited_example :
    ((lateExpiry.foldl (Limiter.step 1) Limiter.start).taken (text "u", 0)).countP
        (accepted 1 (lateExpiry.foldl (Limiter.step 1) Limiter.start)) = 1 ∧
      (lateExpiry.foldl (Limiter.step 1) Limiter.start).valueOf (keyOf (text "u") 0) = 2 := by
  have run : Runs (Limiter.step 1) Punctual Limiter.start
      (lateExpiry.foldl (Limiter.step 1) Limiter.start) :=
    .of_passing punctual_sound .start (by decide +kernel)
  have limited := window_limited run (text "u") 0
  have two : (lateExpiry.foldl (Limiter.step 1) Limiter.start).taken (text "u", 0) = [0, 1] := by
    decide +kernel
  rw [two] at limited
  exact ⟨two ▸ limited.1, limited.2 (by decide +kernel)⟩

end Messageries.Guarantees.RateLimit
