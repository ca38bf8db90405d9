import Messageries.Guarantees.Numbering
import Messageries.Proofs.KeyPackages

set_option linter.unusedSectionVars false

namespace Messageries.Guarantees

open Text Relational Database Crypto Concurrency Backend Moderation Proofs

section KeyPackages

variable [AesGcm] [TokenHash] {w₀ : World} {P P' : Run} {p : Nat} {user : AuthUser} {target t : Nat}
  {suite : Utf16} {kp : MlsKeyPackage}

theorem calls_later (h : machine.Reachable (From w₀) P) (hl : machine.Later P P') {k : Call}
    (hk : P.shared.calls p = some k) : P'.shared.calls p = some k :=
  (sound _ w₀).leads (R := fun w w' => ∀ p k, w.calls p = some k → w'.calls p = some k)
    (fun _ _ _ h => h) (fun _ _ _ h h' p k hk => h' p k (h p k hk)) (fun _ _ _ _ _ hg => hg.calls) h hl
    p k hk

/-- A process on its way to an answer serves the call it answers. -/
theorem same_call (h : machine.Reachable (From w₀) P) (hl : machine.Later P P')
    {s s' : Thread Op Op.Res Err Call Response} (ht : P.threads p = some s)
    (ht' : P'.threads p = some s') : s.call = s'.call := by
  have before := calls_later h hl (call_of_thread h ht)
  exact Option.some.inj (before.symm.trans (call_of_thread (h.leads hl) ht'))

/-- A claim that was answered began its transaction before the package expired. -/
theorem claim_began (h : machine.Reachable (From w₀) P) (hl : machine.Later P P')
    (hp : P.threads p = none) (ht : P'.threads p =
      some ⟨.claimKeyPackage user target suite, some (.pure (.keyPackage kp))⟩) :
    machine.Meets p (fun o w => o = .begin ∧ w.clock < kp.expiresAt) P P' := by
  refine (h.avoids_or_meets hp hl).resolve_left fun h' => ?_
  obtain ⟨kp', e, given⟩ := (sound_packages w₀).returned h' ht trivial
  obtain rfl := Response.keyPackage.inj e
  obtain ⟨w, hw, hlt⟩ := given.fresh
  exact hw rfl ⟨rfl, hlt⟩

/-- A claim that found nothing came by a state where there was nothing. -/
theorem claim_starved (h : machine.Reachable (From w₀) P) (hl : machine.Later P P')
    (hp : P.threads p = none) {m : String} (ht : P'.threads p =
      some ⟨.claimKeyPackage user target suite, some (.throw (.notFound m))⟩) :
    machine.Meets p (fun _ w => stock target suite w.clock w = []) P P' := by
  refine (h.avoids_or_meets hp hl).resolve_left fun h' => ?_
  obtain ⟨w, hw, none⟩ := (sound_packages w₀).threw h' ht trivial m rfl
  exact hw rfl (List.filter_eq_nil_iff.2 fun r hr => by simp [none r hr])

/-- A count read the number of the packages it answers with. -/
theorem count_read (h : machine.Reachable (From w₀) P) (hl : machine.Later P P')
    (hp : P.threads p = none) {n : Nat} (ht : P'.threads p =
      some ⟨.countKeyPackages user suite, some (.pure (.count n))⟩) :
    machine.Meets p (fun o w => ∃ t, o = readAvailable user.sub suite t ∧ t ≤ w.clock ∧
      n = (stock user.sub suite t w).length) P P' := by
  refine (h.avoids_or_meets hp hl).resolve_left fun h' => ?_
  obtain ⟨n', e, w, t, hw, hle, hn⟩ := (sound_packages w₀).returned h' ht trivial
  obtain rfl := Response.count.inj e
  exact hw rfl ⟨t, rfl, hle, hn⟩

theorem given_of_thread (h : machine.Reachable (From w₀) P) (ht : P.threads p =
      some ⟨.claimKeyPackage user target suite, some (.pure (.keyPackage kp))⟩) :
    Given (fun _ _ _ => True) p user target suite kp P.shared := by
  obtain ⟨kp', e, given⟩ := (sound_packages w₀).returned h ht trivial
  exact Response.keyPackage.inj e ▸ given

/-- A claim that came in after the count took a package of the stock. -/
theorem late_claim (h : machine.Reachable (From w₀) P) (hl : machine.Later P P')
    (hp : P.shared.calls p = none) (hle : t ≤ P.shared.clock)
    (hpub : Unpublished target suite P.shared P'.shared) (ht : P'.threads p =
      some ⟨.claimKeyPackage user target suite, some (.pure (.keyPackage kp))⟩) :
    (p, Key.id kp.id) ∈ takers target suite t P.shared P'.shared := by
  have given := given_of_thread (h.leads hl) ht
  have way := passage h hl
  have idle : P.threads p = none := by
    cases e : P.threads p with
    | none => rfl
    | some s => exact nomatch hp.symm.trans (call_of_thread h e)
  obtain ⟨Q, k, o, next, hQ, -, ⟨-, hlt⟩, -⟩ := claim_began h hl idle ht
  obtain ⟨tc, hc⟩ := given.consumed
  have hi' := ((sound_packages w₀).inv (h.leads hl)).1
  obtain ⟨r, hr, hid⟩ := hpub _ hc given.own.1 given.own.2.1
  have hid : r.id = kp.id := hid
  -- the claim came in later, so the package was there to be taken
  have free : r.consumedAt = none := by
    refine (way.unconsumed _ given.claimed).resolve_left (fun hm => ?_) r hr (congrArg Key.id hid)
    obtain ⟨ks, f, hw, -⟩ := mem_claimsIn hm
    obtain ⟨k', hk', -⟩ := ((sound _ w₀).inv h).db.known p _ hw
    cases hp.symm.trans hk'
  refine List.mem_filter.2 ⟨given.claimed, decide_eq_true (List.mem_map.2 ⟨r, ?_, by rw [hid]⟩)⟩
  refine List.mem_filter.2 ⟨hr, ?_⟩
  rcases way.rows r hr with hr' | ⟨-, q, u, t', -, hr'⟩
  · have e := same_package hi' hr' hc hid
    rw [e] at free
    cases free
  · have e := same_package hi' hr' hc hid
    obtain ⟨-, hu, -, hs, -, -, -, hx, -⟩ := MlsKeyPackage.mk.inj e
    refine available_iff.2 ⟨⟨hu.trans given.own.1, hs.trans given.own.2.1, free⟩, ?_⟩
    exact (hle.trans (passage h hQ).clock).trans_lt (hx ▸ hlt)

/-- When a claim that came in after the count finds nothing, the stock is used up. -/
theorem late_starved (h : machine.Reachable (From w₀) P) (hl : machine.Later P P')
    (hp : P.shared.calls p = none) (hpub : Unpublished target suite P.shared P'.shared) {m : String}
    (ht : P'.threads p =
      some ⟨.claimKeyPackage user target suite, some (.throw (.notFound m))⟩) :
    stock target suite P'.shared.clock P'.shared = [] := by
  have idle : P.threads p = none := by
    cases e : P.threads p with
    | none => rfl
    | some s => exact nomatch hp.symm.trans (call_of_thread h e)
  obtain ⟨Q, k, o, next, hQ, -, none, hl'⟩ := claim_starved h hl idle ht
  have hi' := ((sound_packages w₀).inv (h.leads hl)).1
  refine List.filter_eq_nil_iff.2 fun r hr hv => ?_
  obtain ⟨⟨hu, hs, hn⟩, -⟩ := available_iff.1 hv
  have before := (passage h hl).same hi' hpub hr hu hs hn
  have later := passage (h.leads hQ) hl'
  have there : r ∈ Q.shared.store.db .keyPackages := by
    rcases (passage h hQ).rows r before with hr' | ⟨-, q, u, t', -, hr'⟩
    · exact hr'
    · have e := same_package hi' (later.consumed hr' (Option.some_ne_none t')) hr rfl
      rw [← e] at hn
      cases hn
  exact List.filter_eq_nil_iff.1 none r there (available_mono later.clock hv)

/-- What the process of a claim did with the package. -/
theorem taker_takes (h : machine.Reachable (From w₀) P) (hl : machine.Later P P') {c : Nat × Key}
    (hc : c ∈ takers target suite t P.shared P'.shared) :
    ∃ claimant suite' r tc, P'.shared.calls c.1 = some (.claimKeyPackage claimant target suite') ∧
      sent suite' = sent suite ∧ r ∈ stock target suite t P.shared ∧ c.2 = .id r.id ∧
      { r with consumedAt := some tc, consumedBy := some claimant.sub } ∈
        P'.shared.store.db .keyPackages := by
  obtain ⟨hi', taken⟩ := (sound_packages w₀).inv (h.leads hl)
  obtain ⟨hm, hd⟩ := List.mem_filter.1 hc
  obtain ⟨r, hr, hid⟩ := List.mem_map.1 (of_decide_eq_true hd)
  obtain ⟨claimant, suite', r', hr', hkey, hcall, hs', hby, hat⟩ := taken.taken c.1 c.2 hm
  obtain ⟨hr₀, hv⟩ := List.mem_filter.1 hr
  obtain ⟨⟨hu, hs, hn⟩, -⟩ := available_iff.1 hv
  have hid' : r.id = r'.id := Key.id.inj (hid.trans hkey)
  rcases (passage h hl).rows r hr₀ with hr₁ | ⟨-, q, u, tc, -, hr₁⟩
  · obtain rfl := same_package hi' hr₁ hr' hid'
    exact (hat hn).elim
  · obtain rfl := same_package hi' hr₁ hr' hid'
    obtain rfl : u = claimant.sub := Option.some.inj hby
    exact ⟨claimant, suite', r, tc, hu ▸ hcall, hs'.symm.trans hs, hr, hid.symm, hr₁⟩

end KeyPackages

section Example

def examplePublish : Call := .publishKeyPackages ⟨2, .customer⟩ (text "phone") (text "x") [[7]] (some 1)

def exampleClaim : Call := .claimKeyPackage ⟨3, .seller⟩ 2 (text "x")

/-- The package a claim was answered with: its id and when it expires. -/
def claimed (P : Run) (p : Nat) : Option (Call × Nat × Nat) :=
  match P.threads p with
  | some ⟨k, some (.pure (.keyPackage kp))⟩ => some (k, kp.id, kp.expiresAt)
  | _ => none

theorem claimed_thread {P : Run} {p id expires : Nat} {k : Call}
    (h : claimed P p = some (k, id, expires)) :
    ∃ kp, P.threads p = some ⟨k, some (.pure (.keyPackage kp))⟩ ∧ kp.id = id ∧
      kp.expiresAt = expires := by
  unfold claimed at h
  split at h
  · rename_i k' kp ht
    cases h
    exact ⟨kp, ht, rfl, rfl⟩
  · cases h

/-- The call of a claim that found nothing. -/
def refused (P : Run) (p : Nat) : Option Call :=
  match P.threads p with
  | some ⟨k, some (.throw (.notFound _))⟩ => some k
  | _ => none

theorem refused_thread {P : Run} {p : Nat} {k : Call} (h : refused P p = some k) :
    ∃ m, P.threads p = some ⟨k, some (.throw (.notFound m))⟩ := by
  unfold refused at h
  split at h
  · rename_i k' m ht
    cases h
    exact ⟨m, ht⟩
  · cases h

/-- One package is published, and two users claim it. -/
def claimTwice : List (Label Input Event Call) :=
  serve 0 examplePublish 2 ++ serve 1 (.countKeyPackages ⟨2, .customer⟩ (text "x")) 2 ++
    serve 2 exampleClaim 5 ++ serve 3 exampleClaim 3

def claimedTwice : Ran (runFrom exampleWorld claimTwice) (fun P => (claimed P 2, refused P 3))
    (some (exampleClaim, 100, 86400000), some exampleClaim) :=
  .of (by decide +kernel)

/-- The transaction of the claim begins, and the package expires. -/
def waitADay : List (Label Input Event Call) :=
  serve 0 examplePublish 2 ++ serve 1 exampleClaim 1 ++ [.event (.tick 86400000)]

def waited : Ran (runFrom exampleWorld waitADay)
    (fun P => (P.shared.clock, (P.shared.store.db .keyPackages).map fun (r : MlsKeyPackage) =>
      (r.id, r.consumedAt)))
    (86400000, [(100, none)]) :=
  .of (by decide +kernel)

def claimedLate : Ran (runFrom exampleWorld (waitADay ++ List.replicate 4 (.exec 1 calm)))
    (fun P => claimed P 1) (some (exampleClaim, 100, 86400000)) :=
  .of (by decide +kernel)

end Example

end Messageries.Guarantees
