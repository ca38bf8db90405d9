import Messageries.Guarantees.Encryption

set_option linter.unusedSectionVars false

namespace Messageries.Guarantees

open Text Relational Database Crypto Concurrency Backend Moderation Proofs

section Sorted

variable {ms ms' : List MlsMessage} {s : Int}

abbrev Increasing (ms : List MlsMessage) : Prop := ms.Pairwise fun a b => a.sequence < b.sequence

def upTo (s : Int) (ms : List MlsMessage) : List MlsMessage :=
  ms.filter fun m => decide ((m.sequence : Int) ≤ s)

def beyond (s : Int) (ms : List MlsMessage) : List MlsMessage :=
  ms.filter fun m => decide (s < (m.sequence : Int))

theorem upTo_append_beyond (h : Increasing ms) (s : Int) : upTo s ms ++ beyond s ms = ms := by
  induction ms with
  | nil => rfl
  | cons m ms ih =>
    obtain ⟨hm, hms⟩ := List.pairwise_cons.1 h
    by_cases hle : (m.sequence : Int) ≤ s
    · have hlt : ¬s < (m.sequence : Int) := by omega
      simp only [upTo, beyond, List.filter_cons, decide_eq_true hle, decide_eq_false hlt, if_true,
        Bool.false_eq_true, if_false, List.cons_append]
      exact congrArg _ (ih hms)
    · -- nothing that follows is smaller
      have none : ms.filter (fun x => decide ((x.sequence : Int) ≤ s)) = [] := by
        refine List.filter_eq_nil_iff.2 fun x hx hs => ?_
        have := hm x hx
        have := of_decide_eq_true hs
        omega
      have all : ms.filter (fun x => decide (s < (x.sequence : Int))) = ms := by
        refine List.filter_eq_self.2 fun x hx => decide_eq_true ?_
        have := hm x hx
        omega
      have hlt : s < (m.sequence : Int) := by omega
      simp only [upTo, beyond, List.filter_cons, decide_eq_false hle, decide_eq_true hlt, if_true,
        Bool.false_eq_true, if_false, none, all, List.nil_append]

/-- The first rows of a sorted list are those up to the last of them. -/
theorem prefix_eq_upTo (h : Increasing ms) {first : List MlsMessage} {m : MlsMessage}
    (hp : first ++ [m] <+: ms) : first ++ [m] = upTo m.sequence ms := by
  obtain ⟨rest, rfl⟩ := hp
  obtain ⟨hfirst, -, hrest⟩ := List.pairwise_append.1 h
  have taken : upTo m.sequence (first ++ [m]) = first ++ [m] := by
    refine List.filter_eq_self.2 fun x hx => decide_eq_true ?_
    rcases List.mem_append.1 hx with hx | hx
    · have := (List.pairwise_append.1 hfirst).2.2 x hx m (List.mem_singleton_self m)
      omega
    · rw [List.mem_singleton.1 hx]
  have left : upTo m.sequence rest = [] := by
    refine List.filter_eq_nil_iff.2 fun x hx hs => ?_
    have := hrest m (by simp) x hx
    have := of_decide_eq_true hs
    omega
  rw [upTo, List.filter_append, ← upTo, ← upTo, taken, left, List.append_nil]

/-- A page that goes on from `s` extends what was read up to `s`. -/
theorem upTo_next (h : Increasing ms) {first : List MlsMessage} {m : MlsMessage}
    (hp : first ++ [m] <+: beyond s ms) :
    upTo s ms ++ (first ++ [m]) = upTo m.sequence ms := by
  have hm : m ∈ beyond s ms := hp.subset (by simp)
  have hlt : s < (m.sequence : Int) := of_decide_eq_true (List.mem_filter.1 hm).2
  have page : first ++ [m] = upTo m.sequence (beyond s ms) :=
    prefix_eq_upTo (h.sublist List.filter_sublist) hp
  have split := upTo_append_beyond (h.sublist List.filter_sublist : Increasing (upTo m.sequence ms)) s
  have below : upTo s (upTo m.sequence ms) = upTo s ms := by
    rw [upTo, upTo, List.filter_filter]
    refine List.filter_congr fun x _ => ?_
    by_cases hx : (x.sequence : Int) ≤ s
    · simp [hx, show (x.sequence : Int) ≤ m.sequence by omega]
    · simp [hx]
  have above : beyond s (upTo m.sequence ms) = upTo m.sequence (beyond s ms) := by
    rw [upTo, beyond, beyond, upTo, List.filter_filter, List.filter_filter]
    exact List.filter_congr fun x _ => Bool.and_comm ..
  rw [page, ← above, ← below]
  exact split

end Sorted

section Pages

variable [AesGcm] [TokenHash] {db₀ : Db} {strict : Prop} {w : World} {db : Db} {r : MlsGroup}
  {userId : Nat} {after : Option Int} {s n : Int} {limit : Option Utf16}

/-- The messages a user gets to see. -/
def visibleTo (userId : Nat) (ms : List MlsMessage) : List MlsMessage :=
  ms.filter fun m => m.targetUserId.all (· == userId)

/-- The reader goes on from `s`, or starts. -/
def GoesOn (after : Option Int) (s : Int) : Prop := after = some s ∨ after = none ∧ s = 0

theorem increasing_entries (hc : Chained strict db) (hr : r ∈ db .groups) :
    Increasing (entries db r.id) := (hc.serial r hr).sorted

theorem entry_pos (hc : Chained strict db) (hr : r ∈ db .groups) {m : MlsMessage}
    (hm : m ∈ entries db r.id) : 1 ≤ m.sequence := by
  have hs : m.sequence ∈ (entries db r.id).map (·.sequence) := List.mem_map_of_mem hm
  rw [hc.serial r hr, List.mem_range'_1] at hs
  exact hs.1

/-- What a page is cut from. -/
theorem filter_pickUp (hc : Chained strict db) (hr : r ∈ db .groups) (ha : GoesOn after s) :
    (db .mlsMessages).filter (pickUp r.id userId after) =
      beyond s (visibleTo userId (entries db r.id)) := by
  rw [beyond, visibleTo, entries, List.filter_filter, List.filter_filter]
  refine List.filter_congr fun m hm => ?_
  by_cases hg : m.groupId = r.id
  · have hpos := entry_pos hc hr (mem_entries.2 ⟨hm, hg⟩)
    rcases ha with rfl | ⟨rfl, rfl⟩
    · simp [pickUp, hg, Bool.and_comm]
    · have hlt : decide ((0 : Int) < m.sequence) = true := decide_eq_true (by omega)
      simp only [pickUp, hlt, Option.all_none, Bool.true_and, Bool.and_comm]
  · have hne : (m.groupId == r.id) = false := beq_eq_false_iff_ne.2 hg
    simp only [pickUp, hne, Bool.false_and, Bool.and_false]

theorem pageOfGroup_eq (hc : Chained strict db) (hr : r ∈ db .groups) (ha : GoesOn after s)
    (hl : clamp limit 100 500 = some n) (hn : 1 ≤ n) :
    pageOfGroup db r.id userId after limit =
      .ok ((beyond s (visibleTo userId (entries db r.id))).take n.toNat) := by
  have sorted : (beyond s (visibleTo userId (entries db r.id))).Pairwise
      fun a b => a.sequence ≤ b.sequence :=
    ((increasing_entries hc hr).sublist
      (List.filter_sublist.trans List.filter_sublist)).imp Nat.le_of_lt
  rw [pageOfGroup, filter_pickUp hc hr ha, List.Pairwise.insertionSort_eq sorted, hl]
  simp only [page]
  rw [if_neg (by omega), if_neg (by omega)]

/-- A conversation has one group. -/
theorem homed_unique (hi : Inv db₀ w) {gid : Nat} {c : Nat} (hh : Homed gid c w)
    (hr : r ∈ w.store.db .groups) (hc : r.conversationId = c) : r.id = gid := by
  obtain ⟨r', hr', rfl, hc'⟩ := hh
  have same : r = r' := Schema.eq_of_mem_flatMap (hi.ok.unique .groups) hr hr'
    (b := .conversation c) (by simp [Schema.keys, uniqueKeys, hc])
    (by simp [Schema.keys, uniqueKeys, hc'])
  rw [same]

end Pages

section PickUp

variable [AesGcm] [TokenHash] {w₀ : World} {P : Run} {user : AuthUser} {c : Nat}

/-- A request for the messages of a group, with the rows it was answered with. -/
structure PickUp where
  process : Nat
  after : Option Utf16
  limit : Option Utf16
  rows : List MlsMessage

/-- The cursor that follows a page. -/
def cursorPast (s : Int) (rows : List MlsMessage) : Int :=
  match rows.getLast? with
  | some m => m.sequence
  | none => s

/-- A reader starts without a cursor and goes on from the last row received. -/
inductive Picking (P : Run) (user : AuthUser) (c : Nat) : List PickUp → Int → Prop
  | start : Picking P user c [] 0
  | next {qs : List PickUp} {s n : Int} {after : Option Int} (q : PickUp) : Picking P user c qs s →
      P.threads q.process =
        some ⟨.listMls user c q.after q.limit, some (.pure (.mlsMessages q.rows))⟩ →
      cursorAfter q.after = .ok after → GoesOn after s → clamp q.limit 100 500 = some n → 1 ≤ n →
      Picking P user c (qs ++ [q]) (cursorPast s q.rows)

theorem Picking.nil {s : Int} (h : Picking P user c [] s) : s = 0 := by
  generalize e : ([] : List PickUp) = qs at h
  cases h with
  | start => rfl
  | next q _ _ _ _ _ _ => simp at e

theorem Picking.last {qs : List PickUp} {q : PickUp} {s' : Int}
    (h : Picking P user c (qs ++ [q]) s') : ∃ s after, Picking P user c qs s ∧
      cursorAfter q.after = .ok after ∧ GoesOn after s ∧ s' = cursorPast s q.rows := by
  generalize e : qs ++ [q] = qs' at h
  cases h with
  | start => simp at e
  | next q' hq ht hcur hgo hl hn =>
    obtain ⟨rfl, one⟩ := List.append_inj' e rfl
    cases one
    exact ⟨_, _, hq, hcur, hgo, rfl⟩

def picked (qs : List PickUp) : List MlsMessage := qs.flatMap PickUp.rows

/-- What a page was read of. -/
theorem pickUp_read {g : Nat → Op → World → Prop} (h : machine.Reach (From w₀) g P) {p : Nat}
    {after limit : Option Utf16} {rows : List MlsMessage}
    (ht : P.threads p = some ⟨.listMls user c after limit, some (.pure (.mlsMessages rows))⟩) :
    PickedUp w₀.store.db (Timely g) p user c after limit rows P.shared := by
  obtain ⟨rows', e, hp⟩ := (sound_groups g w₀).returned h ht (.inr (.inr trivial))
  cases e
  exact hp

theorem entries_grow {w w' : World} (hw : Initial w₀) (hi : Inv w₀.store.db w)
    (hi' : Inv w₀.store.db w') (hp : w.store.wal <+: w'.store.wal) (gid : Nat) :
    entries w.store.db gid <+: entries w'.store.db gid := by
  rw [entries, entries, mlsMessages_eq hw hi, mlsMessages_eq hw hi']
  exact (mlsLog_grows hp).filter _

/-- The rows received are those the user may see, up to its cursor. -/
theorem picked_eq (h : machine.Reachable (From w₀) P) {qs : List PickUp} {s : Int}
    (hq : Picking P user c qs s) {r : MlsGroup} (hr : r ∈ P.shared.store.db .groups)
    (hc : r.conversationId = c) :
    picked qs = upTo s (visibleTo user.sub (entries P.shared.store.db r.id)) := by
  have hi := reached h
  have sorted : Increasing (visibleTo user.sub (entries P.shared.store.db r.id)) :=
    (increasing_entries (chained h) hr).sublist List.filter_sublist
  induction hq with
  | start =>
    refine (List.filter_eq_nil_iff.2 fun m hm hs => ?_).symm
    have := entry_pos (chained h) hr (List.mem_filter.1 hm).1
    have := of_decide_eq_true hs
    omega
  | @next qs s n after q _ ht hcur hgo hl hn ih =>
    obtain ⟨w, gid, after', hiw, hp, -, ⟨r₁, hr₁, hid, -⟩, hh, hcur', hpage⟩ := pickUp_read h ht
    cases hcur.symm.trans hcur'
    have hgid := homed_unique hi hh hr hc
    rw [← hid, pageOfGroup_eq hiw.2 hr₁ hgo hl hn, hid, ← hgid] at hpage
    have hrows := Except.ok.inj hpage
    have cut : q.rows <+: beyond s (visibleTo user.sub (entries P.shared.store.db r.id)) := by
      rw [← hrows]
      refine (List.take_prefix _ _).trans ?_
      exact ((entries_grow (initial_of_reach h) hiw.1 hi hp r.id).filter _).filter _
    rw [picked, List.flatMap_append, ← picked, ih, List.flatMap_singleton]
    rcases List.eq_nil_or_concat q.rows with e | ⟨first, m, e⟩
    · rw [e, List.append_nil]
      rfl
    · rw [List.concat_eq_append] at e
      rw [e] at cut ⊢
      rw [upTo_next sorted cut, cursorPast, List.getLast?_append, List.getLast?_singleton]
      rfl

/-- The same message, but for the kind and the content of one that another user is to get. -/
inductive Alike (userId : Nat) : MlsMessage → MlsMessage → Prop
  | same (m : MlsMessage) : Alike userId m m
  | aside (m : MlsMessage) (v : Nat) (kind : MlsKind) (ciphertext : Bytes) :
      m.targetUserId = some v → v ≠ userId → Alike userId m { m with kind, ciphertext }

/-- Such messages make no difference to a page. -/
theorem filter_alike {userId gid : Nat} {after : Option Int} {log log' : List MlsMessage}
    (h : List.Forall₂ (Alike userId) log log') :
    log.filter (pickUp gid userId after) = log'.filter (pickUp gid userId after) := by
  induction h with
  | nil => rfl
  | @cons m m' log log' hm _ ih =>
    cases hm with
    | same => rw [List.filter_cons, List.filter_cons, ih]
    | aside v kind ciphertext ht hv =>
      have hidden : ∀ x : MlsMessage, x.targetUserId = some v → pickUp gid userId after x = false := by
        intro x hx
        simp [pickUp, hx, hv]
      rw [List.filter_cons_of_neg (by simp [hidden m ht]),
        List.filter_cons_of_neg (by simp [hidden { m with kind, ciphertext } ht]), ih]

/-- The page was read when the messages of all groups were `log`, since the call came in. -/
def Fetched (P : Run) (user : AuthUser) (c : Nat) (q : PickUp) (log : List MlsMessage) : Prop :=
  log <+: mlsLog P.shared.store.wal ∧
    mlsLog (P.shared.store.wal.take (P.shared.arrived q.process)) <+: log ∧
    ∃ r ∈ P.shared.store.db .groups, (r : MlsGroup).conversationId = c ∧
      ∃ after, cursorAfter q.after = .ok after ∧
        page (clamp q.limit 100 500)
          ((log.filter (pickUp (r : MlsGroup).id user.sub after)).insertionSort
            fun (a b : MlsMessage) => a.sequence ≤ b.sequence) = .ok q.rows

theorem fetched (h : machine.Reachable (From w₀) P) {qs : List PickUp} {s : Int}
    (hq : Picking P user c qs s) : ∃ logs, List.Forall₂ (Fetched P user c) qs logs := by
  induction hq with
  | start => exact ⟨[], .nil⟩
  | next q _ ht hcur _ _ _ ih =>
    obtain ⟨logs, hlogs⟩ := ih
    obtain ⟨w, gid, after, hiw, hp, hle, -, ⟨r, hr, rfl, hc⟩, hcur', hpage⟩ := pickUp_read h ht
    refine ⟨logs ++ [mlsLog w.store.wal], List.rel_append hlogs (.cons ⟨mlsLog_grows hp, ?_,
      r, hr, hc, after, hcur', ?_⟩ .nil)⟩
    · refine mlsLog_grows ?_
      have early : P.shared.store.wal.take (P.shared.arrived q.process) <+: P.shared.store.wal :=
        List.take_prefix _ _
      refine List.prefix_of_prefix_length_le early hp ?_
      rw [List.length_take]
      exact (Nat.min_le_left _ _).trans hle
    · rw [← mlsMessages_eq (initial_of_reach h) hiw.1]
      exact hpage

theorem forall₂_concat {α β : Type} {R : α → β → Prop} {xs : List α} {x : α} {ys : List β}
    (h : List.Forall₂ R (xs ++ [x]) ys) :
    ∃ ys' y, ys = ys' ++ [y] ∧ List.Forall₂ R xs ys' ∧ R x y := by
  induction xs generalizing ys with
  | nil =>
    cases h with
    | cons hr ht =>
      cases ht
      exact ⟨[], _, rfl, .nil, hr⟩
  | cons a xs ih =>
    cases h with
    | cons hr ht =>
      obtain ⟨ys', y, rfl, hs, hy⟩ := ih ht
      exact ⟨_ :: ys', y, rfl, .cons hr hs, hy⟩

/-- A page that starts is one that goes on from `0`. -/
theorem filter_goesOn (h : machine.Reachable (From w₀) P) {r : MlsGroup}
    (hr : r ∈ P.shared.store.db .groups) {log : List MlsMessage}
    (hlog : log <+: mlsLog P.shared.store.wal) {after : Option Int} {s : Int}
    (ha : GoesOn after s) (userId : Nat) :
    log.filter (pickUp r.id userId after) = log.filter (pickUp r.id userId (some s)) := by
  refine List.filter_congr fun m hm => ?_
  rcases ha with rfl | ⟨rfl, rfl⟩
  · rfl
  · by_cases hg : m.groupId = r.id
    · have here : m ∈ P.shared.store.db .mlsMessages := by
        rw [mlsMessages_eq (initial_of_reach h) (reached h)]
        exact hlog.subset hm
      have := entry_pos (chained h) hr (mem_entries.2 ⟨here, hg⟩)
      have hlt : decide ((0 : Int) < m.sequence) = true := decide_eq_true (by omega)
      simp only [pickUp, Option.all_none, Option.all_some, hlt]
    · have hne : (m.groupId == r.id) = false := beq_eq_false_iff_ne.2 hg
      simp only [pickUp, hne, Bool.false_and]

/-- Two readers of logs that are alike receive the same pages. -/
theorem same_pages {w₁ : World} {P' : Run} (h : machine.Reachable (From w₀) P)
    (h' : machine.Reachable (From w₁) P')
    (hg : ∀ r ∈ P.shared.store.db .groups, ∀ r' ∈ P'.shared.store.db .groups,
      (r : MlsGroup).conversationId = c → (r' : MlsGroup).conversationId = c →
      (r : MlsGroup).id = (r' : MlsGroup).id) {qs : List PickUp} {s : Int}
    (hq : Picking P user c qs s) {qs' : List PickUp} {s' : Int} (hq' : Picking P' user c qs' s')
    {logs logs' : List (List MlsMessage)} (hf : List.Forall₂ (Fetched P user c) qs logs)
    (hf' : List.Forall₂ (Fetched P' user c) qs' logs')
    (ha : List.Forall₂ (List.Forall₂ (Alike user.sub)) logs logs')
    (hl : List.Forall₂ (fun q q' => q'.limit = q.limit) qs qs') :
    s = s' ∧ qs.map PickUp.rows = qs'.map PickUp.rows := by
  induction hq generalizing qs' s' logs logs' with
  | start =>
    cases hl
    exact ⟨hq'.nil.symm, rfl⟩
  | @next qs s n after q _ _ hcur hgo _ _ ih =>
    obtain ⟨qs₁, q', rfl, hl, hlim⟩ := forall₂_concat hl
    obtain ⟨logs, log, rfl, hf, hlog, -, r, hr, hc, after₁, hcur₁, hpage⟩ := forall₂_concat hf
    obtain ⟨logs₁, log', rfl, hf', hlog', -, r', hr', hc', after', hcur', hpage'⟩ :=
      forall₂_concat hf'
    obtain ⟨s₁, after₂, hq₁, hcur₂, hgo₁, rfl⟩ := hq'.last
    cases hcur.symm.trans hcur₁
    cases hcur₂.symm.trans hcur'
    obtain ⟨ha, halike⟩ : List.Forall₂ (List.Forall₂ (Alike user.sub)) logs logs₁ ∧
        List.Forall₂ (Alike user.sub) log log' := by
      obtain ⟨_, _, e, ha, hx⟩ := forall₂_concat ha
      obtain ⟨rfl, one⟩ := List.append_inj' e rfl
      cases one
      exact ⟨ha, hx⟩
    obtain ⟨rfl, hrows⟩ := ih hq₁ hf hf' ha hl
    have rows : q.rows = q'.rows := by
      rw [filter_goesOn h hr hlog hgo, filter_alike halike] at hpage
      rw [filter_goesOn h' hr' hlog' hgo₁, ← hg r hr r' hr' hc hc', hlim] at hpage'
      exact Except.ok.inj (hpage.symm.trans hpage')
    exact ⟨by rw [rows], by rw [List.map_append, List.map_append, hrows, List.map_singleton,
      List.map_singleton, rows]⟩

/-- A reader receives the messages of the group that are for everyone or for it, in order, none
twice, and no message for another user shows in its pages. -/
theorem mls_pick_up (h : machine.Reachable (From w₀) P) {qs : List PickUp} {s : Int}
    (hq : Picking P user c qs s) :
    (picked qs).Pairwise (fun m m' => m.sequence < m'.sequence ∧ m.id ≠ m'.id) ∧
    (∀ r ∈ P.shared.store.db .groups, (r : MlsGroup).conversationId = c → ∀ m : MlsMessage,
      m ∈ picked qs ↔ m ∈ P.shared.store.db .mlsMessages ∧ m.groupId = (r : MlsGroup).id ∧
        (m.targetUserId = none ∨ m.targetUserId = some user.sub) ∧ (m.sequence : Int) ≤ s) ∧
    (∃ logs, List.Forall₂ (Fetched P user c) qs logs) ∧
    ∀ w₁ P' qs' s', machine.Reachable (From w₁) P' → Picking P' user c qs' s' →
      (∀ r ∈ P.shared.store.db .groups, ∀ r' ∈ P'.shared.store.db .groups,
        (r : MlsGroup).conversationId = c → (r' : MlsGroup).conversationId = c →
        (r : MlsGroup).id = (r' : MlsGroup).id) →
      List.Forall₂ (fun q q' => q'.limit = q.limit) qs qs' → ∀ logs logs',
      List.Forall₂ (Fetched P user c) qs logs → List.Forall₂ (Fetched P' user c) qs' logs' →
      List.Forall₂ (List.Forall₂ (Alike user.sub)) logs logs' →
      qs.map PickUp.rows = qs'.map PickUp.rows := by
  refine ⟨?_, fun r hr hc m => ?_, fetched h hq, fun w₁ P' qs' s' h' hq' hg hl logs logs' hf hf' ha =>
    (same_pages h h' hg hq hq' hf hf' ha hl).2⟩
  · have group : qs = [] ∨ ∃ r ∈ P.shared.store.db .groups, (r : MlsGroup).conversationId = c := by
      cases hq with
      | start => exact .inl rfl
      | next q _ ht _ _ _ _ =>
        obtain ⟨_, _, _, -, -, -, -, ⟨r, hr, -, hc⟩, -⟩ := pickUp_read h ht
        exact .inr ⟨r, hr, hc⟩
    rcases group with rfl | ⟨r, hr, hc⟩
    · exact .nil
    · rw [picked_eq h hq hr hc]
      have sorted := increasing_entries (chained h) hr
      have distinct : (entries P.shared.store.db r.id).Pairwise fun m m' => m.id ≠ m'.id := by
        have keys := Schema.nodup_of_keys ((reached h).ok.unique .mlsMessages)
        refine (keys.filter _).imp_of_mem fun {m m'} hm hm' hne e => hne ?_
        exact Schema.eq_of_key ((reached h).ok.unique .mlsMessages) (mem_entries.1 hm).1
          (mem_entries.1 hm').1 (k := .id m.id) (List.mem_cons_self ..)
          (List.mem_cons.2 (.inl (by rw [e]; rfl)))
      exact (sorted.and distinct).sublist (List.filter_sublist.trans List.filter_sublist)
  · rw [picked_eq h hq hr hc, upTo, List.mem_filter, visibleTo, List.mem_filter, mem_entries,
      decide_eq_true_eq]
    have seen : m.targetUserId.all (· == user.sub) = true ↔
        m.targetUserId = none ∨ m.targetUserId = some user.sub := by
      cases m.targetUserId <;> simp
    rw [seen, and_assoc, and_assoc]

/-- The messages that were stored name a user exactly when they are welcomes. -/
def Aimed (P : Run) : Prop :=
  ∀ p user c device kind epoch ciphertext target m,
    P.shared.calls p = some (.sendMls user c device kind epoch ciphertext target) →
    (p, Schema.Write.insert .mlsMessages m) ∈ P.shared.store.wal →
    (target.isSome = true ↔ kind = .welcome)

theorem aimed_iff (h : machine.Reachable (From w₀) P) :
    (∀ m ∈ P.shared.store.db .mlsMessages, (m : MlsMessage).targetUserId.isSome = true ↔
      (m : MlsMessage).kind = .welcome) ↔ Aimed P := by
  have hi := reached h
  rw [mlsMessages_eq (initial_of_reach h) hi]
  constructor
  · intro hall p user c device kind epoch ciphertext target m hk hm
    have aimed := hall m (mem_mlsLog.2 ⟨p, hm⟩)
    obtain ⟨k, hk', hmay⟩ := hi.db.known p _ hm
    cases hk.symm.trans hk'
    rcases hmay with ⟨_, _, _, _, _, _, _, _, _, _, e, -⟩ |
      ⟨_, _, _, _, _, _, _, _, _, _, _, _, e, -, rfl⟩
    · cases e
    · cases e
      exact aimed
  · intro haim m hm
    obtain ⟨p, hm⟩ := mem_mlsLog.1 hm
    obtain ⟨k, hk, hmay⟩ := hi.db.known p _ hm
    rcases hmay with ⟨_, _, _, _, _, _, _, _, _, _, -, -, rfl⟩ |
      ⟨_, _, _, _, _, _, _, _, _, _, _, _, rfl, -, rfl⟩
    · exact ⟨fun _ => rfl, fun _ => rfl⟩
    · exact haim p _ _ _ _ _ _ _ _ hk hm

/-- Every row names a user exactly when it is a welcome if and only if every stored message was
sent so; then a reader receives each commit up to its cursor, and each request answers with every
commit it asks for that was there when it came in, unless its page is full. -/
theorem commits_reach_members (h : machine.Reachable (From w₀) P) :
    ((∀ m ∈ P.shared.store.db .mlsMessages, (m : MlsMessage).targetUserId.isSome = true ↔
      (m : MlsMessage).kind = .welcome) ↔ Aimed P) ∧
    (Aimed P → ∀ (user : AuthUser) (c : Nat), ∀ r ∈ P.shared.store.db .groups,
      (r : MlsGroup).conversationId = c → ∀ m : MlsMessage, m.groupId = (r : MlsGroup).id →
      m.kind = .commit →
      (∀ qs s, Picking P user c qs s → m ∈ P.shared.store.db .mlsMessages →
        (m.sequence : Int) ≤ s → m ∈ picked qs) ∧
      ∀ p after limit rows a n, P.threads p =
          some ⟨.listMls user c after limit, some (.pure (.mlsMessages rows))⟩ →
        cursorAfter after = .ok a → (∀ s, a = some s → s < (m.sequence : Int)) →
        clamp limit 100 500 = some n → 1 ≤ n →
        m ∈ mlsLog (P.shared.store.wal.take (P.shared.arrived p)) →
        m ∈ rows ∨ rows.length = n.toNat ∧ ∀ x ∈ rows, x.sequence < m.sequence) := by
  refine ⟨aimed_iff h, fun haim user c r hr hc m hg hk => ?_⟩
  have untargeted : m ∈ P.shared.store.db .mlsMessages → m.targetUserId = none := by
    intro hm
    rw [← Option.not_isSome_iff_eq_none, (aimed_iff h).2 haim m hm, hk]
    nofun
  refine ⟨fun qs s hq hm hs => ?_, fun p after limit rows a n ht hcur ha hl hn hm => ?_⟩
  · rw [picked_eq h hq hr hc]
    refine List.mem_filter.2 ⟨List.mem_filter.2 ⟨mem_entries.2 ⟨hm, hg⟩, ?_⟩, decide_eq_true hs⟩
    rw [untargeted hm]
    rfl
  · obtain ⟨w, gid, a', hiw, hp, hle, ⟨r₁, hr₁, hid, -⟩, hh, hcur', hpage⟩ := pickUp_read h ht
    cases hcur.symm.trans hcur'
    have hgid := homed_unique (reached h) hh hr hc
    have hgo : GoesOn a (a.getD 0) := by
      cases a with
      | none => exact .inr ⟨rfl, rfl⟩
      | some s => exact .inl rfl
    have there : m ∈ w.store.db .mlsMessages := by
      rw [mlsMessages_eq (initial_of_reach h) hiw.1]
      refine (mlsLog_grows (List.prefix_of_prefix_length_le (List.take_prefix _ _) hp ?_)).subset hm
      rw [List.length_take]
      exact (Nat.min_le_left _ _).trans hle
    have here : m ∈ P.shared.store.db .mlsMessages := by
      rw [mlsMessages_eq (initial_of_reach h) (reached h)]
      exact (mlsLog_grows (List.take_prefix _ _)).subset hm
    rw [← hid, pageOfGroup_eq hiw.2 hr₁ hgo hl hn] at hpage
    have hrows := Except.ok.inj hpage
    have asked : m ∈ beyond (a.getD 0) (visibleTo user.sub (entries w.store.db r₁.id)) := by
      have member := mem_entries.2 ⟨there, hg.trans (hgid.trans hid.symm)⟩
      refine List.mem_filter.2 ⟨List.mem_filter.2 ⟨member, ?_⟩, decide_eq_true ?_⟩
      · rw [untargeted here]
        rfl
      · cases a with
        | none =>
          have := entry_pos hiw.2 hr₁ member
          exact Int.natCast_pos.2 this
        | some s => exact ha s rfl
    have sorted : Increasing (beyond (a.getD 0) (visibleTo user.sub (entries w.store.db r₁.id))) :=
      (increasing_entries hiw.2 hr₁).sublist (List.filter_sublist.trans List.filter_sublist)
    rw [← List.take_append_drop n.toNat (beyond _ _)] at asked sorted
    rw [← hrows]
    rcases List.mem_append.1 asked with hm | hm
    · exact .inl hm
    · refine .inr ⟨List.length_take_of_le ?_, fun x hx => (List.pairwise_append.1 sorted).2.2 x hx m hm⟩
      have := List.length_pos_of_mem hm
      rw [List.length_drop] at this
      omega

end PickUp

section Example

def examplePickUp (after : Option Utf16) : Call :=
  .listMls ⟨3, .seller⟩ 10 after (some (text "1"))

/-- The rows a pick-up was answered with. -/
def rowsOf (P : Run) (p : Nat) : Option (List MlsMessage) :=
  match answer P p with
  | some (.mlsMessages ms) => some ms
  | _ => none

theorem thread_of_rowsOf {P : Run} {p : Nat} {k : Call} {ms : List MlsMessage}
    (hk : callOf P p = some k) (h : rowsOf P p = some ms) :
    P.threads p = some ⟨k, some (.pure (.mlsMessages ms))⟩ := by
  rw [rowsOf] at h
  split at h
  · rename_i he
    cases h
    exact thread_of_answer hk he
  · cases h

def pickUpTwice : List (Label Input Event Call) :=
  serve 0 exampleEnable 11 ++ serve 1 (exampleMls .commit "0") 11 ++
    serve 2 (examplePickUp none) 6 ++ serve 3 (examplePickUp (some (text "1"))) 6

def pickedUpTwice : Ran (runFrom exampleWorld pickUpTwice)
    (fun P => callOf P 2 == some (examplePickUp none) &&
      callOf P 3 == some (examplePickUp (some (text "1"))) &&
      (rowsOf P 2).map (List.map (·.sequence)) == some [1] &&
      (rowsOf P 3).map (List.map (·.sequence)) == some [2] &&
      (P.shared.store.db .groups).map (fun (r : MlsGroup) => (r.id, r.conversationId)) ==
        [(100, 10)] &&
      (P.shared.store.db .mlsMessages).all fun (m : MlsMessage) =>
        m.targetUserId.isSome == (m.kind == .welcome)) true :=
  .of (by decide +kernel)

theorem mls_pick_up_example :
    ∃ P ms ms', runFrom exampleWorld pickUpTwice = some P ∧ rowsOf P 2 = some ms ∧
      rowsOf P 3 = some ms' ∧ (ms ++ ms').map (·.sequence) = [1, 2] ∧
      (ms ++ ms').Pairwise fun m m' => m.sequence < m'.sequence ∧ m.id ≠ m'.id := by
  obtain ⟨P, hP, hv⟩ := pickedUpTwice
  simp only [Bool.and_eq_true, beq_iff_eq, Option.map_eq_some_iff] at hv
  obtain ⟨⟨⟨⟨⟨hk, hk'⟩, ms, hms, hs⟩, ms', hms', hs'⟩, -⟩, -⟩ := hv
  have limited : clamp (some (text "1")) 100 500 = some 1 := by decide +kernel
  have first := Picking.next ⟨2, none, some (text "1"), ms⟩ .start (thread_of_rowsOf hk hms)
    (by decide +kernel : cursorAfter none = .ok none) (.inr ⟨rfl, rfl⟩) limited (by decide)
  have cursor : cursorPast 0 ms = 1 := by
    obtain ⟨m, rfl, hm⟩ := List.map_eq_singleton_iff.1 hs
    simp [cursorPast, hm]
  have second := Picking.next ⟨3, some (text "1"), some (text "1"), ms'⟩ (cursor ▸ first)
    (thread_of_rowsOf hk' hms') (by decide +kernel : cursorAfter (some (text "1")) = .ok (some 1))
    (.inl rfl) limited (by decide)
  refine ⟨P, ms, ms', hP, hms, hms', by simp [hs, hs'], ?_⟩
  simpa [picked] using (@mls_pick_up exampleCipher exampleHash _ _ _ _
    (reachable_runFrom initial_example hP) _ _ second).1

theorem commits_reach_members_example :
    ∃ P ms ms', runFrom exampleWorld pickUpTwice = some P ∧ rowsOf P 2 = some ms ∧
      rowsOf P 3 = some ms' ∧ ∀ m ∈ P.shared.store.db .mlsMessages,
        (m : MlsMessage).groupId = 100 → (m : MlsMessage).kind = .commit →
        (m : MlsMessage).sequence ≤ 2 → m ∈ ms ++ ms' := by
  obtain ⟨P, hP, hv⟩ := pickedUpTwice
  simp only [Bool.and_eq_true, beq_iff_eq, Option.map_eq_some_iff, List.all_eq_true] at hv
  obtain ⟨⟨⟨⟨⟨hk, hk'⟩, ms, hms, hs⟩, ms', hms', hs'⟩, hg⟩, hrows⟩ := hv
  have limited : clamp (some (text "1")) 100 500 = some 1 := by decide +kernel
  have first := Picking.next ⟨2, none, some (text "1"), ms⟩ .start (thread_of_rowsOf hk hms)
    (by decide +kernel : cursorAfter none = .ok none) (.inr ⟨rfl, rfl⟩) limited (by decide)
  have cursor : cursorPast 0 ms = 1 := by
    obtain ⟨m, rfl, hm⟩ := List.map_eq_singleton_iff.1 hs
    simp [cursorPast, hm]
  have second := Picking.next ⟨3, some (text "1"), some (text "1"), ms'⟩ (cursor ▸ first)
    (thread_of_rowsOf hk' hms') (by decide +kernel : cursorAfter (some (text "1")) = .ok (some 1))
    (.inl rfl) limited (by decide)
  have last : cursorPast 1 ms' = 2 := by
    obtain ⟨m, rfl, hm⟩ := List.map_eq_singleton_iff.1 hs'
    simp [cursorPast, hm]
  have h := reachable_runFrom initial_example hP
  obtain ⟨r, hr, he⟩ := List.map_eq_singleton_iff.1 hg
  simp only [Prod.mk.injEq] at he
  have aimed : Aimed P := (@aimed_iff exampleCipher exampleHash _ _ h).1 fun m hm => by
    rw [hrows m hm]
    exact beq_iff_eq
  refine ⟨P, ms, ms', hP, hms, hms', fun m hm hgroup hkind hle => ?_⟩
  have found := ((@commits_reach_members exampleCipher exampleHash _ _ h).2 aimed ⟨3, .seller⟩ 10 r
    (hr ▸ List.mem_singleton_self r) he.2 m (hgroup.trans he.1.symm) hkind).1 _ _ second hm
    (by simp only; rw [last]; omega)
  simpa [picked] using found

/-- A commit that names one user moves the epoch of the whole group. -/
def hiddenCommit : Ran (runFrom exampleWorld (serve 0 exampleEnable 11 ++
      serve 1 (.sendMls ⟨2, .customer⟩ 10 (text "d") .commit (text "0") [8] (some 2)) 11 ++
      serve 2 (.listMls ⟨3, .seller⟩ 10 none none) 6))
    (fun P => callOf P 2 == some (.listMls ⟨3, .seller⟩ 10 none none) &&
      (rowsOf P 2).map (List.map (·.kind)) == some [.welcome] &&
      (P.shared.store.db .groups).map (fun (r : MlsGroup) => r.epoch) == [1] &&
      (P.shared.store.db .mlsMessages).any fun (m : MlsMessage) =>
        m.targetUserId.isSome && m.kind == .commit) true :=
  .of (by decide +kernel)

theorem commit_hidden_from_member :
    ∃ P ms, runFrom exampleWorld (serve 0 exampleEnable 11 ++
        serve 1 (.sendMls ⟨2, .customer⟩ 10 (text "d") .commit (text "0") [8] (some 2)) 11 ++
        serve 2 (.listMls ⟨3, .seller⟩ 10 none none) 6) = some P ∧
      (P.shared.store.db .groups).map (fun (r : MlsGroup) => r.epoch) = [1] ∧
      P.threads 2 = some ⟨.listMls ⟨3, .seller⟩ 10 none none, some (.pure (.mlsMessages ms))⟩ ∧
      ∃ m ∈ P.shared.store.db .mlsMessages, (m : MlsMessage).targetUserId.isSome = true ∧
        (m : MlsMessage).kind = .commit ∧ m ∉ ms := by
  obtain ⟨P, hP, hv⟩ := hiddenCommit
  simp only [Bool.and_eq_true, beq_iff_eq, Option.map_eq_some_iff, List.any_eq_true] at hv
  obtain ⟨⟨⟨hk, ms, hms, hkinds⟩, hg⟩, m, hm, ht, hkind⟩ := hv
  refine ⟨P, ms, hP, hg, thread_of_rowsOf hk hms, m, hm, ht, hkind, fun hmem => ?_⟩
  obtain ⟨x, rfl, hx⟩ := List.map_eq_singleton_iff.1 hkinds
  rw [List.mem_singleton.1 hmem, hx] at hkind
  cases hkind

end Example

end Messageries.Guarantees
