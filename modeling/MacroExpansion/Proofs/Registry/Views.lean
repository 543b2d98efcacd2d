import Mathlib
import MacroExpansion.Proofs.Association
import MacroExpansion.Proofs.Registry.History

/-!
# The views of a registry

A registry holds its registrations that were not refused, and nothing else (`performAll_eq`).  What
is looked up, the number of handlers, the kinds and whether there are any are all read off that list
of registrations: `Holds` says how, one more registration keeps it (`Holds.register`), and so does
any number of them (`Holds.registers`).
-/

namespace MacroExpansion

/-- The handlers that registrations give to a kind, the latest first. -/
def Registration.latestFirst (kind : String) (xs : List Registration) : List Handler :=
  ((xs.filter (·.kind = kind)).map (·.handler)).reverse

theorem Registration.latestFirst_append (kind : String) (xs ys : List Registration) :
    latestFirst kind (xs ++ ys) = latestFirst kind ys ++ latestFirst kind xs := by
  simp [latestFirst]

theorem Registration.latestFirst_concat (kind : String) (xs : List Registration)
    (x : Registration) : latestFirst kind (xs ++ [x]) =
      if x.kind = kind then x.handler :: latestFirst kind xs else latestFirst kind xs := by
  by_cases h : x.kind = kind <;> simp [latestFirst, h]

theorem Registration.mem_latestFirst {kind : String} {xs : List Registration} {h : Handler} :
    h ∈ latestFirst kind xs ↔ ∃ x ∈ xs, x.kind = kind ∧ x.handler = h := by
  simp [latestFirst, and_assoc]

theorem Registration.latestFirst_ne_nil_iff {kind : String} {xs : List Registration} :
    latestFirst kind xs ≠ [] ↔ ∃ x ∈ xs, x.kind = kind := by
  simp [latestFirst]

namespace Registry

variable {r : Registry}

/-! ## Registrations that are not refused -/

/-- The registry after a registration, or why it was refused. -/
def attempt (r : Registry) (x : Registration) : Except Report Registry :=
  if x.once then r.registerOnce x.kind x.handler else .ok (r.register x.kind x.handler)

/-- The registrations that are not refused when some are made one after the other. -/
def accepted (r : Registry) : List Registration → List Registration
  | [] => []
  | x :: xs =>
    match r.attempt x with
    | .ok r' => x :: r'.accepted xs
    | .error _ => r.accepted xs

/-- Registers handlers one after the other, whatever their names. -/
def registers (r : Registry) (xs : List Registration) : Registry :=
  xs.foldl (fun r x => r.register x.kind x.handler) r

/-- A handler is refused exactly if its kind has one of that name. -/
theorem registerOnce_eq (r : Registry) (kind : String) (handler : Handler) :
    r.registerOnce kind handler = if handler.name ∈ (r.lookup kind).map Handler.name then
      .error (.of (.registry (.alreadyRegistered handler.name kind)))
      else .ok (r.register kind handler) := by
  have htaken : (r.lookup kind).any (·.name == handler.name) = true ↔
      handler.name ∈ (r.lookup kind).map Handler.name := by
    simp [List.mem_map]
  rw [registerOnce]
  exact if_congr htaken rfl rfl

theorem exists_registerOnce_eq_error_iff {kind : String} {handler : Handler} :
    (∃ report, r.registerOnce kind handler = .error report) ↔
      handler.name ∈ (r.lookup kind).map Handler.name := by
  rw [registerOnce_eq]
  split
  case isTrue htaken => exact iff_of_true ⟨_, rfl⟩ htaken
  case isFalse hfree =>
    refine iff_of_false ?_ hfree
    rintro ⟨report, h⟩
    cases h

theorem perform_of_attempt_eq_error {x : Registration} {report : Report}
    (h : r.attempt x = .error report) : r.perform x = r := by
  rw [attempt] at h
  rw [perform]
  split at h
  case isTrue honce => rw [if_pos honce, h]
  case isFalse => cases h

/-- A registration that is not refused puts its handler in front; if it asked for a name that is not
taken, it got one. -/
theorem of_attempt_eq_ok {r' : Registry} {x : Registration} (h : r.attempt x = .ok r') :
    r.perform x = r' ∧ r' = r.register x.kind x.handler ∧
      (x.once = true → x.handler.name ∉ (r.lookup x.kind).map Handler.name) := by
  rw [attempt] at h
  rw [perform]
  split at h
  case isTrue honce =>
    rw [if_pos honce, h]
    rw [registerOnce_eq] at h
    split at h
    case isTrue => cases h
    case isFalse hfree => exact ⟨rfl, (Except.ok.inj h).symm, fun _ => hfree⟩
  case isFalse honce =>
    rw [if_neg honce]
    exact ⟨Except.ok.inj h, (Except.ok.inj h).symm, fun h => absurd h honce⟩

/-- Registrations that are refused leave nothing behind. -/
theorem performAll_eq (r : Registry) (xs : List Registration) :
    r.performAll xs = r.registers (r.accepted xs) := by
  induction xs generalizing r with
  | nil => rfl
  | cons x xs ih =>
    rw [accepted]
    split
    case h_1 r' hattempt =>
      obtain ⟨hperform, hregister, -⟩ := of_attempt_eq_ok hattempt
      refine (congrArg (·.performAll xs) hperform).trans ((ih r').trans ?_)
      exact congrArg (·.registers (r'.accepted xs)) hregister
    case h_2 report hattempt =>
      exact (congrArg (·.performAll xs) (perform_of_attempt_eq_error hattempt)).trans (ih r)

/-! ## What a registry holds -/

/-- Each kind with an entry has a handler. -/
def Populated (r : Registry) : Prop := ∀ entry ∈ r.entries, entry.2 ≠ []

theorem Populated.register (h : r.Populated) (kind : String) (handler : Handler) :
    (r.register kind handler).Populated := by
  obtain ⟨entries⟩ := r
  change ∀ entry ∈ insertEntry kind handler entries, entry.2 ≠ []
  replace h : ∀ entry ∈ entries, entry.2 ≠ [] := h
  induction entries with
  | nil => simp [insertEntry]
  | cons old entries ih =>
    obtain ⟨k, handlers⟩ := old
    obtain ⟨hold, hrest⟩ := List.forall_mem_cons.1 h
    rw [insertEntry]
    split
    case isTrue => exact List.forall_mem_cons.2 ⟨List.cons_ne_nil _ _, hrest⟩
    case isFalse =>
      split
      case isTrue => exact List.forall_mem_cons.2 ⟨List.cons_ne_nil _ _, h⟩
      case isFalse => exact List.forall_mem_cons.2 ⟨hold, ih hrest⟩

theorem size_register (r : Registry) (kind : String) (handler : Handler) :
    (r.register kind handler).size = r.size + 1 := by
  obtain ⟨entries⟩ := r
  change ((insertEntry kind handler entries).flatMap (·.2)).length =
    (entries.flatMap (·.2)).length + 1
  induction entries with
  | nil => rfl
  | cons old entries ih =>
    rw [insertEntry]
    split
    case isTrue =>
      simp only [List.flatMap_cons, List.length_append, List.length_cons]
      omega
    case isFalse =>
      split
      case isTrue =>
        simp only [List.flatMap_cons, List.length_append, List.length_cons, List.length_nil]
        omega
      case isFalse =>
        simp only [List.flatMap_cons, List.length_append, ih]
        omega

/-- A registry holds some registrations, the earliest first, and nothing else. -/
structure Holds (r : Registry) (done : List Registration) : Prop where
  sorted : r.Sorted
  populated : r.Populated
  lookup_eq : ∀ kind, r.lookup kind = Registration.latestFirst kind done
  size_eq : r.size = done.length

theorem holds_empty : empty.Holds [] :=
  ⟨List.Pairwise.nil, fun _ h => absurd h List.not_mem_nil, fun _ => rfl, rfl⟩

/-- Which objects handlers give back is not for a registry to hold. -/
theorem Holds.withSharing {done : List Registration} {sharing : Context → Context → Tree → Bool}
    (h : r.Holds done) : Holds ⟨r.entries, sharing⟩ done :=
  ⟨h.sorted, h.populated, h.lookup_eq, h.size_eq⟩

/-- One more registration. -/
theorem Holds.register {done : List Registration} (h : r.Holds done) (x : Registration) :
    (r.register x.kind x.handler).Holds (done ++ [x]) where
  sorted := h.sorted.register _ _
  populated := h.populated.register _ _
  lookup_eq kind := by
    rw [lookup_register h.sorted, h.lookup_eq, Registration.latestFirst_concat]
    exact if_congr eq_comm rfl rfl
  size_eq := by rw [size_register, h.size_eq, List.length_append, List.length_singleton]

/-- Any number of registrations. -/
theorem Holds.registers {done : List Registration} (h : r.Holds done) (xs : List Registration) :
    (r.registers xs).Holds (done ++ xs) := by
  induction xs generalizing r done with
  | nil => rwa [List.append_nil]
  | cons x xs ih =>
    rw [← List.singleton_append, ← List.append_assoc]
    exact ih (h.register x)

theorem holds_performAll (xs : List Registration) :
    (empty.performAll xs).Holds (empty.accepted xs) := by
  rw [performAll_eq]
  exact holds_empty.registers _

/-! ## The views -/

namespace Holds

variable {done : List Registration}

theorem contains_iff (h : r.Holds done) (kind : String) :
    r.contains kind = true ↔ ∃ x ∈ done, x.kind = kind := by
  rw [contains, h.lookup_eq, Bool.not_eq_true', List.isEmpty_eq_false_iff,
    Registration.latestFirst_ne_nil_iff]

theorem pairwise_kinds (h : r.Holds done) : r.kinds.Pairwise (· < ·) :=
  List.pairwise_map.2 h.sorted

/-- An entry is what is looked up at its kind. -/
theorem lookup_of_mem (h : r.Holds done) {entry : String × List Handler}
    (hmem : entry ∈ r.entries) : r.lookup entry.1 = entry.2 := by
  have hnodup : (r.entries.map Prod.fst).Nodup := h.pairwise_kinds.imp Std.ne_of_lt
  rw [lookup, (Association.lookup_eq_some_iff_mem hnodup).2 hmem, Option.getD_some]

theorem mem_kinds_iff (h : r.Holds done) (kind : String) :
    kind ∈ r.kinds ↔ ∃ x ∈ done, x.kind = kind := by
  rw [← Registration.latestFirst_ne_nil_iff, ← h.lookup_eq]
  constructor
  · intro hkind
    obtain ⟨entry, hmem, rfl⟩ := List.mem_map.1 hkind
    rw [h.lookup_of_mem hmem]
    exact h.populated entry hmem
  · intro hne
    rw [lookup] at hne
    cases hlookup : r.entries.lookup kind with
    | none => simp [hlookup] at hne
    | some handlers =>
      obtain ⟨before, after, heq, -⟩ := List.lookup_eq_some_iff.1 hlookup
      exact List.mem_map.2 ⟨(kind, handlers), by simp [heq], rfl⟩

theorem entries_eq (h : r.Holds done) :
    r.entries = r.kinds.map fun kind => (kind, r.lookup kind) := by
  rw [kinds, List.map_map]
  refine (List.map_id _).symm.trans (List.map_congr_left fun entry hmem => ?_)
  exact Prod.ext rfl (h.lookup_of_mem hmem).symm

theorem isEmpty_iff (h : r.Holds done) : r.isEmpty = true ↔ r.size = 0 := by
  rw [isEmpty, List.isEmpty_iff, size, List.length_eq_zero_iff, List.flatMap_eq_nil_iff]
  constructor
  · intro hnil entry hmem
    rw [hnil] at hmem
    exact absurd hmem List.not_mem_nil
  · -- An entry without handlers would not be counted, but there is none.
    intro hall
    exact List.eq_nil_iff_forall_not_mem.2 fun entry hmem =>
      h.populated entry hmem (hall entry hmem)

theorem name_mem_lookup_iff (h : r.Holds done) {kind name : String} :
    name ∈ (r.lookup kind).map Handler.name ↔
      ∃ x ∈ done, x.kind = kind ∧ x.handler.name = name := by
  rw [h.lookup_eq, List.mem_map]
  constructor
  · rintro ⟨handler, hmem, rfl⟩
    obtain ⟨x, hx, hkind, rfl⟩ := Registration.mem_latestFirst.1 hmem
    exact ⟨x, hx, hkind, rfl⟩
  · rintro ⟨x, hx, hkind, rfl⟩
    exact ⟨x.handler, Registration.mem_latestFirst.2 ⟨x, hx, hkind, rfl⟩, rfl⟩

end Holds

/-- If all that a kind gets asks for a name that is not taken, its names stay distinct. -/
theorem nodup_names_performAll (h : r.Sorted) {kind : String} {xs : List Registration}
    (honce : ∀ x ∈ r.accepted xs, x.kind = kind → x.once = true)
    (hnodup : ((r.lookup kind).map Handler.name).Nodup) :
    (((r.performAll xs).lookup kind).map Handler.name).Nodup := by
  induction xs generalizing r with
  | nil => exact hnodup
  | cons x xs ih =>
    change (((r.perform x).performAll xs).lookup kind |>.map Handler.name).Nodup
    rw [accepted] at honce
    split at honce
    case h_1 r' hattempt =>
      obtain ⟨hperform, rfl, hfree⟩ := of_attempt_eq_ok hattempt
      obtain ⟨hx, hxs⟩ := List.forall_mem_cons.1 honce
      rw [hperform]
      refine ih (h.register _ _) hxs ?_
      rw [lookup_register h]
      split
      case isTrue hkind =>
        subst hkind
        -- The name was free: otherwise the registration would have been refused.
        exact List.nodup_cons.2 ⟨hfree (hx rfl), hnodup⟩
      case isFalse => exact hnodup
    case h_2 report hattempt =>
      rw [perform_of_attempt_eq_error hattempt]
      exact ih h honce hnodup

/-- A registry is the list of its registrations that were not refused, and all its views agree on
it: the handlers of each kind, their number, the kinds, and what is refused next. -/
theorem views_of_accepted (xs : List Registration) :
    let r := empty.performAll xs
    let done := empty.accepted xs
    r = empty.registers done ∧
    (∀ kind, r.lookup kind = ((done.filter (·.kind = kind)).map (·.handler)).reverse ∧
      (r.contains kind = true ↔ ∃ x ∈ done, x.kind = kind)) ∧
    r.size = done.length ∧
    (r.kinds.Pairwise (· < ·) ∧ ∀ kind, kind ∈ r.kinds ↔ ∃ x ∈ done, x.kind = kind) ∧
    r.entries = r.kinds.map (fun kind => (kind, r.lookup kind)) ∧
    (r.isEmpty = true ↔ r.size = 0) ∧
    (∀ kind handler, ((∃ report, r.registerOnce kind handler = .error report) ↔
        ∃ x ∈ done, x.kind = kind ∧ x.handler.name = handler.name) ∧
      ∀ report, r.registerOnce kind handler = .error report →
        empty.performAll (xs ++ [⟨kind, handler, true⟩]) = r) ∧
    ∀ kind, (∀ x ∈ done, x.kind = kind → x.once = true) →
      ((r.lookup kind).map Handler.name).Nodup := by
  intro r done
  have h : r.Holds done := holds_performAll xs
  refine ⟨performAll_eq empty xs, fun kind => ⟨h.lookup_eq kind, h.contains_iff kind⟩, h.size_eq,
    ⟨h.pairwise_kinds, h.mem_kinds_iff⟩, h.entries_eq, h.isEmpty_iff, fun kind handler => ⟨?_, ?_⟩,
    fun kind honce => ?_⟩
  · rw [exists_registerOnce_eq_error_iff, h.name_mem_lookup_iff]
  · intro report hrefused
    have hattempt : r.attempt ⟨kind, handler, true⟩ = .error report := hrefused
    refine List.foldl_append.trans ?_
    exact perform_of_attempt_eq_error hattempt
  · exact nodup_names_performAll holds_empty.sorted honce List.nodup_nil

/-- Registrations for two kinds: `first` may come back to `a`, but not where it has to be new. -/
def comings : List Registration :=
  [⟨"b", .declining "first", true⟩, ⟨"a", .declining "first", false⟩,
    ⟨"b", .declining "first", true⟩, ⟨"a", .declining "first", true⟩,
    ⟨"a", .declining "first", false⟩, ⟨"b", .declining "second", true⟩]

theorem views_of_accepted_comings :
    (empty.performAll comings).size = 4 ∧ (empty.performAll comings).kinds = ["a", "b"] ∧
      ((empty.performAll comings).lookup "a").map Handler.name = ["first", "first"] ∧
      ((empty.performAll comings).lookup "b").map Handler.name = ["second", "first"] ∧
      (((empty.performAll comings).lookup "b").map Handler.name).Nodup ∧
      empty.performAll (comings ++ [⟨"b", .declining "first", true⟩]) =
        empty.performAll comings := by
  obtain ⟨-, -, -, -, -, -, hrefused, hnodup⟩ := views_of_accepted comings
  have hdone : empty.accepted comings = [⟨"b", .declining "first", true⟩,
      ⟨"a", .declining "first", false⟩, ⟨"a", .declining "first", false⟩,
      ⟨"b", .declining "second", true⟩] := by cbv
  have hagain : (empty.performAll comings).registerOnce "b" (.declining "first") =
      .error (.of (.registry (.alreadyRegistered "first" "b"))) := by cbv
  refine ⟨by cbv, by cbv, by cbv, by cbv, hnodup "b" ?_, (hrefused "b" _).2 _ hagain⟩
  rw [hdone]
  simp

end Registry

end MacroExpansion
