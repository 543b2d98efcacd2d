import Mathlib
import MacroExpansion.Proofs.Name.Stamp

/-!
# The history of a name

A stamped name tells by whom it was stamped.  After any number of stamps its segments are the
maximal runs of stamps by one module, in order, and its base is the name before the first one
(`stampAll_remembers`).  Nothing about the last stamp is lost either: from the stamped name one gets
back the module, the scope and, unless it had another spelling, the name before
(`stamp_injective`).  Any name at all that can be stamped keeps its base and its scopes, and gets
one scope more (`stamp_adds_scope`).
-/

namespace MacroExpansion

/-- A module that stamps a name, and the scope that it adds. -/
abbrev Stamp := String × Scope

namespace Segment

/-- The stamps that a segment records. -/
def stamps (segment : Segment) : List Stamp := segment.scopes.map (segment.moduleName, ·)

theorem stamps_ne_nil {segment : Segment} (h : segment.scopes ≠ []) : segment.stamps ≠ [] := by
  simpa [stamps] using h

theorem fst_of_mem_stamps {segment : Segment} {s : Stamp} (h : s ∈ segment.stamps) :
    s.1 = segment.moduleName := by
  obtain ⟨scope, -, rfl⟩ := List.mem_map.1 h
  rfl

theorem isChain_stamps (segment : Segment) :
    segment.stamps.IsChain fun s t => (s.1 == t.1) = true := by
  refine (List.pairwise_of_forall_mem_list fun s hs t ht => ?_).isChain
  rw [beq_iff_eq, fst_of_mem_stamps hs, fst_of_mem_stamps ht]

end Segment

namespace ScopedName

/-! ## Written names -/

theorem hasScopes_of_encode {n : ScopedName} {name : String} (h : n.encode = .ok name) :
    hasScopes name = true := by
  obtain ⟨w, -, htext⟩ := exists_spelling_of_encode h
  exact hasScopes_of_toList_eq htext

theorem eraseScopes_of_encode {n : ScopedName} {name : String} (h : n.encode = .ok name) :
    eraseScopes name = n.base := by
  obtain ⟨w, rfl, htext⟩ := exists_spelling_of_encode h
  exact (eraseScopes_of_toList_eq htext).trans rfl

theorem eraseScopes_of_decode {name : String} {n : ScopedName} (h : decode name = .ok n) :
    eraseScopes name = n.base := by
  obtain ⟨w, htext, rfl⟩ := exists_spelling_of_decode h
  exact eraseScopes_of_toList_eq htext

theorem hasScopes_of_decode {name : String} {n : ScopedName} (h : decode name = .ok n) :
    hasScopes name = true := by
  obtain ⟨w, htext, -⟩ := exists_spelling_of_decode h
  exact hasScopes_of_toList_eq htext

theorem hasScopes_of_stamp {name mainModule stamped : String} {scope : Scope}
    (h : stamp name mainModule scope = .ok stamped) : hasScopes stamped = true := by
  obtain ⟨n, hdecode, -⟩ := exists_decode_of_stamp h
  exact hasScopes_of_decode hdecode

/-- Stamping keeps the base of a name. -/
theorem eraseScopes_of_stamp {name mainModule stamped : String} {scope : Scope}
    (h : stamp name mainModule scope = .ok stamped) : eraseScopes stamped = eraseScopes name := by
  rcases stamp_eq_ok_iff.1 h with ⟨-, n, hdecode, hencode⟩ | ⟨hplain, hencode⟩
  · rw [eraseScopes_of_encode hencode, base_addScope, eraseScopes_of_decode hdecode]
  · rw [eraseScopes_of_encode hencode, eraseScopes, hplain, if_neg Bool.false_ne_true]

theorem hasScopes_of_validBase {base : String} (h : ValidBase base) : hasScopes base = false := by
  rw [Bool.eq_false_iff]
  intro hscopes
  obtain ⟨front, tail, last, hbase, -⟩ := (hasScopes_iff base).1 hscopes
  have hmarker : markerStem <:+: marker := ⟨[], ['.'], rfl⟩
  refine h.2.2 (hmarker.trans ⟨front, tail ++ [last], ?_⟩)
  rw [hbase, List.append_assoc _ tail]

theorem eraseScopes_of_validBase {base : String} (h : ValidBase base) :
    eraseScopes base = base := by
  rw [eraseScopes, hasScopes_of_validBase h, if_neg Bool.false_ne_true]

/-! ## Runs of stamps -/

/-- The segments of a name in order, that of the main module last. -/
def segments (n : ScopedName) : List Segment := n.imported ++ [⟨n.mainModule, n.scopes⟩]

/-- Segments that record some stamps, with a new segment exactly where the module changes. -/
structure Records (segments : List Segment) (stamps : List Stamp) : Prop where
  stamps_eq : segments.flatMap Segment.stamps = stamps
  scopes_ne_nil : ∀ segment ∈ segments, segment.scopes ≠ []
  modules_ne : segments.IsChain fun s t => s.moduleName ≠ t.moduleName

theorem Records.addScope {n : ScopedName} {stamps : List Stamp} (h : Records n.segments stamps)
    (mainModule : String) (scope : Scope) :
    Records (n.addScope mainModule scope).segments (stamps ++ [(mainModule, scope)]) := by
  obtain ⟨hstamps, hscopes, hmodules⟩ := h
  obtain ⟨himported, hlast⟩ := List.forall_mem_append.1 hscopes
  rw [ScopedName.addScope]
  split
  case isTrue hsame =>
    subst hsame
    refine ⟨?_, List.forall_mem_append.2 ⟨himported, by simp⟩, ?_⟩
    · rw [← hstamps]
      simp [segments, Segment.stamps]
    · -- Whether two segments differ in their modules does not depend on their scopes.
      obtain ⟨hchain, -, hseam⟩ := List.isChain_append.1 hmodules
      refine List.isChain_append.2 ⟨hchain, List.isChain_singleton _, ?_⟩
      simpa using hseam
  case isFalse hother =>
    refine ⟨?_, List.forall_mem_append.2 ⟨hscopes, by simp⟩, ?_⟩
    · rw [← hstamps]
      simp [segments, Segment.stamps]
    · refine List.isChain_append.2 ⟨hmodules, List.isChain_singleton _, ?_⟩
      simpa [segments] using hother

/-- The segments that record some stamps are the maximal runs of stamps by one module. -/
theorem Records.map_stamps {segments : List Segment} {stamps : List Stamp}
    (h : Records segments stamps) :
    segments.map Segment.stamps = stamps.splitBy fun s t => s.1 == t.1 := by
  refine (List.splitBy_eq_iff.2 ⟨?_, ?_, ?_, ?_⟩).symm
  · rw [← h.stamps_eq, List.flatMap_def]
  · intro hnil
    obtain ⟨segment, hsegment, hstamps⟩ := List.mem_map.1 hnil
    exact Segment.stamps_ne_nil (h.scopes_ne_nil segment hsegment) hstamps
  · intro run hrun
    obtain ⟨segment, -, rfl⟩ := List.mem_map.1 hrun
    exact Segment.isChain_stamps segment
  · rw [List.isChain_map]
    refine h.modules_ne.imp_of_mem_imp fun s t hs ht hne => ?_
    refine ⟨Segment.stamps_ne_nil (h.scopes_ne_nil s hs),
      Segment.stamps_ne_nil (h.scopes_ne_nil t ht), ?_⟩
    rw [beq_eq_false_iff_ne, Segment.fst_of_mem_stamps (List.getLast_mem _),
      Segment.fst_of_mem_stamps (List.head_mem _)]
    exact hne

/-! ## Stamping again and again -/

/-- Stamps a name, and the result again, and so on. -/
def stampAll (name : String) (stamps : List Stamp) : Except NameFault String :=
  stamps.foldlM (fun name s => stamp name s.1 s.2) name

/-- A written name that remembers its base and its stamps. -/
def Remembers (name base : String) (stamps : List Stamp) : Prop :=
  ∃ n : ScopedName, n.encode = .ok name ∧ n.base = base ∧ Records n.segments stamps

theorem exists_stamp_of_validBase {base mainModule : String} (hbase : ValidBase base)
    (hmodule : ValidModule mainModule) (scope : Scope) :
    ∃ name, stamp base mainModule scope = .ok name ∧
      Remembers name base [(mainModule, scope)] := by
  have hscopes := hasScopes_of_validBase hbase
  obtain ⟨name, hname⟩ := exists_stamp_iff.2 ⟨hmodule, .inr ⟨hscopes, hbase⟩⟩
  have hencode : encode ⟨base, [], mainModule, [scope]⟩ = .ok name := by
    simpa [hscopes] using stamp_eq_ok_iff.1 hname
  exact ⟨name, hname, _, hencode, rfl, rfl, by simp [segments], List.isChain_singleton _⟩

/-- What one more stamp does to a name that remembers its stamps. -/
theorem Remembers.exists_stamp {name base mainModule : String} {stamps : List Stamp}
    (h : Remembers name base stamps) (hmodule : ValidModule mainModule) (scope : Scope) :
    ∃ name', stamp name mainModule scope = .ok name' ∧
      Remembers name' base (stamps ++ [(mainModule, scope)]) := by
  obtain ⟨n, hencode, rfl, hrecords⟩ := h
  have hformed := (wellFormed_of_encode hencode).addScope hmodule scope
  obtain ⟨name', hname'⟩ := (exists_encode_iff _).2 hformed
  refine ⟨name', ?_, _, hname', base_addScope n mainModule scope,
    hrecords.addScope mainModule scope⟩
  exact stamp_eq_ok_iff.2
    (.inl ⟨hasScopes_of_encode hencode, n, decode_of_encode hencode, hname'⟩)

/-- Stamping never fails, and after the first stamp the name remembers all of them. -/
theorem exists_stampAll {base : String} (hbase : ValidBase base) (stamps : List Stamp)
    (hmodules : ∀ s ∈ stamps, ValidModule s.1) :
    ∃ name, stampAll base stamps = .ok name ∧
      (stamps = [] ∧ name = base ∨ Remembers name base stamps) := by
  induction stamps using List.reverseRecOn with
  | nil => exact ⟨base, rfl, .inl ⟨rfl, rfl⟩⟩
  | append_singleton stamps s ih =>
    obtain ⟨hearlier, hmodule⟩ := List.forall_mem_append.1 hmodules
    replace hmodule := hmodule s (List.mem_singleton_self s)
    obtain ⟨name, hname, hstate⟩ := ih hearlier
    have hnext : ∃ name', stamp name s.1 s.2 = .ok name' ∧
        Remembers name' base (stamps ++ [s]) := by
      rcases hstate with ⟨rfl, rfl⟩ | hremembers
      · exact exists_stamp_of_validBase hbase hmodule s.2
      · exact hremembers.exists_stamp hmodule s.2
    obtain ⟨name', hname', hremembers⟩ := hnext
    refine ⟨name', ?_, .inr hremembers⟩
    rw [stampAll, List.foldlM_append]
    refine bind_eq_ok_iff.2 ⟨name, hname, bind_eq_ok_iff.2 ⟨name', hname', rfl⟩⟩

/-- A name remembers its whole history: stamping a valid base never fails, the segments of the
result are the runs of stamps by one module, and every name on the way has the same base. -/
theorem stampAll_remembers {base : String} (hbase : ValidBase base) {stamps : List Stamp}
    (hne : stamps ≠ []) (hmodules : ∀ s ∈ stamps, ValidModule s.1) :
    (∃ name n, stampAll base stamps = .ok name ∧ decode name = .ok n ∧ n.base = base ∧
      n.segments.map Segment.stamps = stamps.splitBy fun s t => s.1 == t.1) ∧
    ∀ earlier later, stamps = earlier ++ later →
      ∃ name, stampAll base earlier = .ok name ∧ eraseScopes name = base := by
  constructor
  · obtain ⟨name, hname, hstate⟩ := exists_stampAll hbase stamps hmodules
    obtain ⟨n, hencode, hn, hrecords⟩ := hstate.resolve_left fun ⟨hnil, _⟩ => hne hnil
    exact ⟨name, n, hname, decode_of_encode hencode, hn, hrecords.map_stamps⟩
  · rintro earlier later rfl
    obtain ⟨name, hname, hstate⟩ :=
      exists_stampAll hbase earlier fun s hs => hmodules s (List.mem_append_left _ hs)
    refine ⟨name, hname, ?_⟩
    rcases hstate with ⟨-, rfl⟩ | ⟨n, hencode, hn, -⟩
    · exact eraseScopes_of_validBase hbase
    · rw [eraseScopes_of_encode hencode, hn]

/-- A module that comes back after another one gets a segment of its own. -/
theorem stampAll_remembers_returning :
    let stamps : List Stamp := [("A", 1), ("B.C", 2), ("B.C", 2), ("A", 3)]
    stampAll "x._" stamps = .ok "x._._@.A.1.B.C.2.2.A._hyg.3" ∧
      ∃ n, decode "x._._@.A.1.B.C.2.2.A._hyg.3" = .ok n ∧ n.base = "x._" ∧
        n.segments.map Segment.stamps = [[("A", 1)], [("B.C", 2), ("B.C", 2)], [("A", 3)]] := by
  intro stamps
  have hname : stampAll "x._" stamps = .ok "x._._@.A.1.B.C.2.2.A._hyg.3" := by cbv
  obtain ⟨name, n, hname', hdecode, hbase, hruns⟩ :=
    (@stampAll_remembers "x._" (by decide) stamps (by decide) (by decide)).1
  obtain rfl : name = _ := Except.ok.inj (hname'.symm.trans hname)
  exact ⟨hname, n, hdecode, hbase, hruns.trans (by decide)⟩

/-! ## The last stamp -/

/-- With the stamp known, a name can be told from what it became.  A segment of one scope is new: a
name that had scopes before keeps them in front. -/
theorem addScope_inj {n n' : ScopedName} (hn : n.scopes ≠ []) (hn' : n'.scopes ≠ [])
    {mainModule : String} {scope : Scope}
    (h : n.addScope mainModule scope = n'.addScope mainModule scope) : n = n' := by
  obtain ⟨base, imported, m, scopes⟩ := n
  obtain ⟨base', imported', m', scopes'⟩ := n'
  rw [addScope, addScope] at h
  split at h
  case isTrue =>
    split at h
    case isTrue =>
      simp only [mk.injEq, List.append_cancel_right_eq] at h
      rw [h.1, h.2.1, h.2.2.1, h.2.2.2]
    case isFalse =>
      simp only [mk.injEq, List.append_eq_singleton_iff] at h
      simp_all
  case isFalse =>
    split at h
    case isTrue =>
      simp only [mk.injEq, List.singleton_eq_append_iff] at h
      simp_all
    case isFalse =>
      simp only [mk.injEq, List.append_singleton_inj, Segment.mk.injEq] at h
      rw [h.1, h.2.1.1, h.2.1.2.1, h.2.1.2.2]

/-- A first stamp is never taken for a later one. -/
theorem first_ne_addScope {n : ScopedName} (hn : n.scopes ≠ []) (name mainModule : String)
    (scope : Scope) :
    (⟨name, [], mainModule, [scope]⟩ : ScopedName) ≠ n.addScope mainModule scope := by
  intro h
  rw [addScope] at h
  split at h
  case isTrue => simp_all
  case isFalse => simp_all

/-- A name without scopes, or one as it is written. -/
def Canonical (name : String) : Prop :=
  hasScopes name = false ∨ ∃ n : ScopedName, n.encode = .ok name

/-- How a canonical name is stamped: it is a base and gets its first scope, or it is written and
gets one scope more. -/
theorem Canonical.of_stamp {name mainModule stamped : String} {scope : Scope}
    (h : Canonical name) (hstamp : stamp name mainModule scope = .ok stamped) :
    decode stamped = .ok ⟨name, [], mainModule, [scope]⟩ ∨
      ∃ n : ScopedName, n.scopes ≠ [] ∧ n.encode = .ok name ∧
        decode stamped = .ok (n.addScope mainModule scope) := by
  rcases stamp_eq_ok_iff.1 hstamp with ⟨hscopes, n, hdecode, hencode⟩ | ⟨-, hencode⟩
  · rcases h with hplain | ⟨n', hname⟩
    · rw [hplain] at hscopes
      cases hscopes
    · rw [decode_of_encode hname] at hdecode
      obtain rfl := Except.ok.inj hdecode
      exact .inr ⟨n', (wellFormed_of_encode hname).scopes, hname, decode_of_encode hencode⟩
  · exact .inl (decode_of_encode hencode)

/-- Names that are stamped alike are alike. -/
theorem Canonical.eq_of_stamp {name name' mainModule stamped : String} {scope : Scope}
    (h : Canonical name) (h' : Canonical name') (hstamp : stamp name mainModule scope = .ok stamped)
    (hstamp' : stamp name' mainModule scope = .ok stamped) : name = name' := by
  rcases h.of_stamp hstamp with hdecode | ⟨n, hn, hname, hdecode⟩
  · rcases h'.of_stamp hstamp' with hdecode' | ⟨n', hn', -, hdecode'⟩
    · rw [hdecode, Except.ok.injEq, mk.injEq] at hdecode'
      exact hdecode'.1
    · rw [hdecode] at hdecode'
      exact absurd (Except.ok.inj hdecode') (first_ne_addScope hn' _ _ _)
  · rcases h'.of_stamp hstamp' with hdecode' | ⟨n', hn', hname', hdecode'⟩
    · rw [hdecode'] at hdecode
      exact absurd (Except.ok.inj hdecode) (first_ne_addScope hn _ _ _)
    · rw [hdecode] at hdecode'
      rw [addScope_inj hn hn' (Except.ok.inj hdecode'), hname'] at hname
      exact (Except.ok.inj hname).symm

/-- A stamped name determines the module and the scope. -/
theorem stamp_eq_of_stamp {name name' mainModule mainModule' stamped : String}
    {scope scope' : Scope} (h : stamp name mainModule scope = .ok stamped)
    (h' : stamp name' mainModule' scope' = .ok stamped) :
    mainModule = mainModule' ∧ scope = scope' := by
  obtain ⟨n, hdecode, hmodule, hlast⟩ := exists_decode_of_stamp h
  obtain ⟨n', hdecode', hmodule', hlast'⟩ := exists_decode_of_stamp h'
  rw [hdecode] at hdecode'
  obtain rfl := Except.ok.inj hdecode'
  rw [hlast] at hlast'
  exact ⟨hmodule.symm.trans hmodule', Option.some.inj hlast'⟩

/-- Stamping is injective: the stamped name determines the module and the scope, whatever the name
before was, and it determines that name if it was canonical. -/
theorem stamp_injective (name name' mainModule mainModule' stamped : String) (scope scope' : Scope)
    (h : stamp name mainModule scope = .ok stamped)
    (h' : stamp name' mainModule' scope' = .ok stamped) :
    (Canonical name → Canonical name' →
      name = name' ∧ mainModule = mainModule' ∧ scope = scope') ∧
    mainModule = mainModule' ∧ scope = scope' := by
  obtain ⟨rfl, rfl⟩ := stamp_eq_of_stamp h h'
  exact ⟨fun hname hname' => ⟨hname.eq_of_stamp hname' h h', rfl, rfl⟩, rfl, rfl⟩

/-- Another spelling is stamped alike, but it is not canonical. -/
theorem stamp_injective_padded :
    stamp "x._@.A._hyg.1" "B" 2 = .ok "x._@.A.1.B._hyg.2" ∧
      stamp "x._@.A._hyg.01" "B" 2 = .ok "x._@.A.1.B._hyg.2" ∧
      Canonical "x._@.A._hyg.1" ∧ ¬ Canonical "x._@.A._hyg.01" := by
  have hplain : stamp "x._@.A._hyg.1" "B" 2 = .ok "x._@.A.1.B._hyg.2" := by cbv
  have hpadded : stamp "x._@.A._hyg.01" "B" 2 = .ok "x._@.A.1.B._hyg.2" := by cbv
  have hcanonical : Canonical "x._@.A._hyg.1" := .inr ⟨⟨"x", [], "A", [1]⟩, by decide⟩
  refine ⟨hplain, hpadded, hcanonical, fun h => ?_⟩
  have hname := ((stamp_injective _ _ _ _ _ _ _ hpadded hplain).1 h hcanonical).1
  exact absurd hname (by decide)

/-! ## One stamp -/

/-- All scopes of a name, those of the main module last. -/
def allScopes (n : ScopedName) : List Scope := n.segments.flatMap Segment.scopes

/-- The scopes that a written name carries; a plain name carries none. -/
def Carries (name : String) (scopes : List Scope) : Prop :=
  (hasScopes name = false ∧ scopes = []) ∨
    (hasScopes name = true ∧ ∃ n, decode name = .ok n ∧ n.allScopes = scopes)

theorem allScopes_addScope (n : ScopedName) (mainModule : String) (scope : Scope) :
    (n.addScope mainModule scope).allScopes = n.allScopes ++ [scope] := by
  rw [addScope]
  split
  case isTrue => simp [allScopes, segments]
  case isFalse => simp [allScopes, segments]

/-- Why a name cannot be stamped, whatever the module. -/
theorem not_stampable_iff {name : String} :
    ¬ Stampable name ↔
      (hasScopes name = false ∧ ¬ ValidBase name) ∨
      (hasScopes name = true ∧ ((∃ fault, decode name = .error fault) ∨
        ∃ n, decode name = .ok n ∧ ¬ ValidBase n.base)) := by
  rw [Stampable]
  cases hasScopes name with
  | false => simp
  | true =>
    cases decode name with
    | error fault => simp
    | ok n => simp

/-- A stamped name can be read: it keeps the base of the name before, and has its scopes and one
more. -/
theorem exists_carries_of_stamp {name mainModule stamped : String} {scope : Scope}
    (h : stamp name mainModule scope = .ok stamped) :
    ∃ n before, decode stamped = .ok n ∧ Carries name before ∧
      n.allScopes = before ++ [scope] := by
  rcases stamp_eq_ok_iff.1 h with ⟨hscopes, n, hdecode, hencode⟩ | ⟨hplain, hencode⟩
  · exact ⟨_, n.allScopes, decode_of_encode hencode, .inr ⟨hscopes, n, hdecode, rfl⟩,
      allScopes_addScope n mainModule scope⟩
  · exact ⟨_, [], decode_of_encode hencode, .inl ⟨hplain, rfl⟩, rfl⟩

/-- Stamping adds one scope and keeps the base, whatever the name is and however it is spelled.  It
fails only for a module that is not valid, or for a name whose base cannot be read or written. -/
theorem stamp_adds_scope (name mainModule : String) (scope : Scope) :
    (∀ stamped, stamp name mainModule scope = .ok stamped →
      hasScopes stamped = true ∧ eraseScopes stamped = eraseScopes name ∧
      ∃ n before, decode stamped = .ok n ∧ n.mainModule = mainModule ∧
        n.scopes.getLast? = some scope ∧ Carries name before ∧
        n.allScopes = before ++ [scope]) ∧
    ((∃ fault, stamp name mainModule scope = .error fault) ↔
      ¬ ValidModule mainModule ∨
      (hasScopes name = false ∧ ¬ ValidBase name) ∨
      (hasScopes name = true ∧ ((∃ fault, decode name = .error fault) ∨
        ∃ n, decode name = .ok n ∧ ¬ ValidBase n.base))) := by
  constructor
  · intro stamped h
    obtain ⟨n, hdecode, hmodule, hlast⟩ := exists_decode_of_stamp h
    obtain ⟨n', before, hdecode', hcarries, hscopes⟩ := exists_carries_of_stamp h
    obtain rfl : n' = n := Except.ok.inj (hdecode'.symm.trans hdecode)
    refine ⟨hasScopes_of_stamp h, eraseScopes_of_stamp h, n', before, hdecode, hmodule, hlast,
      hcarries, hscopes⟩
  · have hstamp := @exists_stamp_iff name mainModule scope
    rw [← not_stampable_iff, ← Classical.not_and_iff_not_or_not, ← hstamp]
    cases stamp name mainModule scope with
    | ok stamped => simp
    | error fault => simp

/-- The spelling of a number does not matter, and neither does a base that ends like a delimiter. -/
theorem stamp_adds_scope_padded :
    stamp "x._._@.A.007.B._hyg.01" "B" 5 = .ok "x._._@.A.7.B._hyg.1.5" ∧
      eraseScopes "x._._@.A.7.B._hyg.1.5" = "x._" ∧
      ∃ n, decode "x._._@.A.7.B._hyg.1.5" = .ok n ∧ n.mainModule = "B" ∧
        n.allScopes = [7, 1, 5] := by
  have hstamp : stamp "x._._@.A.007.B._hyg.01" "B" 5 = .ok "x._._@.A.7.B._hyg.1.5" := by cbv
  have hread : decode "x._._@.A.007.B._hyg.01" = .ok ⟨"x._", [⟨"A", [7]⟩], "B", [1]⟩ := by cbv
  obtain ⟨-, herase, n, before, hdecode, hmodule, -, hcarries, hscopes⟩ :=
    (stamp_adds_scope _ _ _).1 _ hstamp
  rw [eraseScopes_of_decode hread] at herase
  refine ⟨hstamp, herase, n, hdecode, hmodule, ?_⟩
  rcases hcarries with ⟨hplain, -⟩ | ⟨-, n', hdecode', rfl⟩
  · rw [hasScopes_of_decode hread] at hplain
    cases hplain
  · rw [hread] at hdecode'
    obtain rfl := Except.ok.inj hdecode'
    exact hscopes

end ScopedName

end MacroExpansion
