import Messageries.Gateway.Server

/-! The counters of the rate limiters in Redis, where each command of a check is a step of its
own. -/

namespace Messageries.Gateway.RateLimit

open Text Moderation

/-- A counter of Redis; without EXPIRE it stays for ever. -/
structure Counter where
  value : Nat
  expires : Option Nat

/-- Where a check stands: its INCR is under way, Redis took it, EXPIRE is under way, Redis took
that, or the check returned. -/
inductive Stage
  | sent | counted (c : Nat) | expiring (c : Nat) | expired (c : Nat) | returned (ok : Bool)
deriving DecidableEq

/-- A check of one of the processes, for a user in the minute it was called in. -/
structure Check where
  user : Utf16
  window : Nat
  stage : Stage

/-- `taken` is a ghost: the checks whose INCR Redis took for a user and a minute. -/
structure Limiter where
  keys : Utf16 → Option Counter
  checks : Nat → Option Check
  clock : Nat
  taken : Utf16 × Nat → List Nat

/-- What happens next: a step of the process of a check, a command that Redis takes, or time. A
process that crashes takes no further steps. -/
inductive Act
  | check (call : Nat) (user : Utf16)
  | incr (call : Nat)
  | resume (call : Nat)
  | expire (call : Nat)
  | tick (ms : Nat)

/-- `ws_rl:${userId}:${Math.floor(Date.now() / 60_000)}` -/
def keyOf (user : Utf16) (window : Nat) : Utf16 := text "ws_rl:" ++ user ++ 58 :: idText window

/-- What a check returns or is going to return, under the limit `limit`. -/
def Stage.accepts (limit : Nat) : Stage → Bool
  | .sent => false
  | .counted c | .expiring c | .expired c => c ≤ limit
  | .returned ok => ok

section Keys

theorem colon_not_mem_idText (n : Nat) : 58 ∉ idText n := by
  intro h
  obtain ⟨c, hc, hu⟩ := List.mem_flatMap.1 h
  have digit := Char.isDigit_iff_toNat.1 (Nat.isDigit_of_mem_toDigits (by decide) (by decide) hc)
  have lo : 48 ≤ c.toNat := digit.1
  have hi : c.toNat ≤ 57 := digit.2
  rw [units, if_pos (by omega), List.mem_singleton] at hu
  have unit := congrArg UInt16.toNat hu
  rw [UInt16.toNat_ofNat_of_lt' (Nat.lt_of_le_of_lt hi (by decide))] at unit
  have : c.toNat = 58 := unit.symm
  omega

/-- The last separator of a key ends the name of the user. -/
theorem keyOf_inj {user user' : Utf16} {window window' : Nat}
    (h : keyOf user window = keyOf user' window') : user = user' ∧ window = window' := by
  have late : ∀ {s t c : Utf16}, 58 ∉ s → 58 :: s = c ++ 58 :: t → c = [] ∧ s = t := by
    intro s t c hs e
    cases c with
    | nil => exact ⟨rfl, (List.cons.inj e).2⟩
    | cons u c =>
      have : 58 ∈ s := (List.cons.inj e).2 ▸ List.mem_append_right _ (List.mem_cons_self ..)
      exact absurd this hs
  simp only [keyOf, List.append_assoc, List.append_cancel_left_eq] at h
  rcases List.append_eq_append_iff.1 h with ⟨c, rfl, e⟩ | ⟨c, rfl, e⟩
  · obtain ⟨rfl, hw⟩ := late (colon_not_mem_idText window) e
    exact ⟨(List.append_nil _).symm, idText_inj hw⟩
  · obtain ⟨rfl, hw⟩ := late (colon_not_mem_idText window') e
    exact ⟨List.append_nil _, (idText_inj hw).symm⟩

end Keys

namespace Limiter

def start : Limiter := ⟨fun _ => none, fun _ => none, 0, fun _ => []⟩

def set (call : Nat) (c : Check) (g : Limiter) : Limiter :=
  { g with checks := Function.update g.checks call (some c) }

def setKey (key : Utf16) (c : Option Counter) (g : Limiter) : Limiter :=
  { g with keys := Function.update g.keys key c }

def valueOf (key : Utf16) (g : Limiter) : Nat := (g.keys key).elim 0 Counter.value

/-- `RedisRateLimiter.check` and `RealtimeGateway.rateLimitOk` up to the first await. -/
def check (call : Nat) (user : Utf16) (g : Limiter) : Limiter :=
  match g.checks call with
  | none => g.set call ⟨user, g.clock / 60000, .sent⟩
  | some _ => g

/-- INCR keeps the time to live. -/
def count (call : Nat) (user : Utf16) (window : Nat) (g : Limiter) : Limiter :=
  let key := keyOf user window
  let c := g.valueOf key + 1
  { (g.setKey key (some ⟨c, (g.keys key).bind Counter.expires⟩)).set call
      ⟨user, window, .counted c⟩ with
    taken := Function.update g.taken (user, window) (g.taken (user, window) ++ [call]) }

def incr (call : Nat) (g : Limiter) : Limiter :=
  match g.checks call with
  | some ⟨user, window, .sent⟩ => g.count call user window
  | _ => g

/-- `expire(key, 65)` -/
def touch (key : Utf16) (g : Limiter) : Limiter :=
  g.setKey key ((g.keys key).map fun c => { c with expires := some (g.clock + 65 * 1000) })

def expire (call : Nat) (g : Limiter) : Limiter :=
  match g.checks call with
  | some ⟨user, window, .expiring c⟩ =>
    (g.touch (keyOf user window)).set call ⟨user, window, .expired c⟩
  | _ => g

/-- The check goes on with a reply of Redis. -/
def resume (limit call : Nat) (g : Limiter) : Limiter :=
  match g.checks call with
  | some ⟨user, window, .counted c⟩ =>
    g.set call ⟨user, window, if c = 1 then .expiring c else .returned (c ≤ limit)⟩
  | some ⟨user, window, .expired c⟩ => g.set call ⟨user, window, .returned (c ≤ limit)⟩
  | _ => g

def tick (ms : Nat) (g : Limiter) : Limiter :=
  { g with
    clock := g.clock + ms
    keys := fun key => (g.keys key).filter fun c => c.expires.all (g.clock + ms < ·) }

def step (limit : Nat) (g : Limiter) : Act → Limiter
  | .check call user => g.check call user
  | .incr call => g.incr call
  | .resume call => g.resume limit call
  | .expire call => g.expire call
  | .tick ms => g.tick ms

variable {limit : Nat} {g : Limiter} {a : Act}

@[simp] theorem set_self (call : Nat) (c : Check) : (g.set call c).checks call = some c :=
  Function.update_self ..

@[simp] theorem set_of_ne {call other : Nat} (h : other ≠ call) (c : Check) :
    (g.set call c).checks other = g.checks other :=
  Function.update_of_ne h ..

@[simp] theorem set_keys (call : Nat) (c : Check) : (g.set call c).keys = g.keys := rfl

@[simp] theorem set_clock (call : Nat) (c : Check) : (g.set call c).clock = g.clock := rfl

@[simp] theorem set_taken (call : Nat) (c : Check) : (g.set call c).taken = g.taken := rfl

@[simp] theorem touch_checks (key : Utf16) : (g.touch key).checks = g.checks := rfl

@[simp] theorem touch_clock (key : Utf16) : (g.touch key).clock = g.clock := rfl

@[simp] theorem touch_taken (key : Utf16) : (g.touch key).taken = g.taken := rfl

/-- What one step does, if anything. -/
theorem step_cases : g.step limit a = g ∨
    (∃ call user, a = .check call user ∧ g.checks call = none ∧
      g.step limit a = g.set call ⟨user, g.clock / 60000, .sent⟩) ∨
    (∃ call user window, a = .incr call ∧ g.checks call = some ⟨user, window, .sent⟩ ∧
      g.step limit a = g.count call user window) ∨
    (∃ call user window s s', g.checks call = some ⟨user, window, s⟩ ∧ s ≠ .sent ∧ s' ≠ .sent ∧
      s'.accepts limit = s.accepts limit ∧ g.step limit a = g.set call ⟨user, window, s'⟩) ∨
    (∃ call user window c, g.checks call = some ⟨user, window, .expiring c⟩ ∧
      g.step limit a = (g.touch (keyOf user window)).set call ⟨user, window, .expired c⟩) ∨
    ∃ ms, g.step limit a = g.tick ms := by
  cases a with
  | check call user =>
    simp only [step, check]
    split
    · exact .inr (.inl ⟨call, user, rfl, ‹_›, rfl⟩)
    · exact .inl rfl
  | incr call =>
    simp only [step, incr]
    split
    · exact .inr (.inr (.inl ⟨call, _, _, rfl, ‹_›, rfl⟩))
    · exact .inl rfl
  | resume call =>
    simp only [step, resume]
    split
    · rename_i user window c h
      refine .inr (.inr (.inr (.inl ⟨call, user, window, .counted c, _, h, ?_, ?_, ?_, rfl⟩)))
      · exact Stage.noConfusion
      · split <;> exact Stage.noConfusion
      · split <;> rfl
    · rename_i user window c h
      refine .inr (.inr (.inr (.inl ⟨call, user, window, .expired c, _, h, ?_, ?_, ?_, rfl⟩)))
      · exact Stage.noConfusion
      · exact Stage.noConfusion
      · rfl
    · exact .inl rfl
  | expire call =>
    simp only [step, expire]
    split
    · exact .inr (.inr (.inr (.inr (.inl ⟨call, _, _, _, ‹_›, rfl⟩))))
    · exact .inl rfl
  | tick ms => exact .inr (.inr (.inr (.inr (.inr ⟨ms, rfl⟩))))

end Limiter

/-- Redis takes an INCR in the minute that its key is for. -/
def Punctual (g : Limiter) (a : Act) : Prop :=
  ∀ call c, a = .incr call → g.checks call = some c → c.stage = .sent → c.window = g.clock / 60000

end Messageries.Gateway.RateLimit
