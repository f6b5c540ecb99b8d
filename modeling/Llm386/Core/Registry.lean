import Llm386.Core.Page

/-! # Model registry

`ModelRegistry` of `llm386-core/src/model.rs`: the profiles by name, and the profile that a caller's model name is
resolved to. The warnings that a fallback logs are left out. -/

namespace Llm386

deriving instance DecidableEq for ModelProfile

/-- A model profile with the fields that only the registry keeps. -/
structure RegistryProfile extends ModelProfile where
  supportsTools : Bool
  /-- Names with this prefix fall back to the profile. -/
  family : Option String
deriving DecidableEq

/-- How a name was resolved. -/
inductive Resolution
  | exactName | familyFallback | defaultFallback
deriving DecidableEq

/-- The profile at `i` is the last of its name. -/
def Newest (profiles : List RegistryProfile) (i : Nat) (p : RegistryProfile) : Prop :=
  profiles[i]? = some p ∧ ∀ j q, i < j → profiles[j]? = some q → q.name ≠ p.name

/-- The index holds the last registration of every name. -/
structure ModelRegistry where
  profiles : List RegistryProfile
  byName : Std.ExtTreeMap String Nat compare
  defaultName : Option String
  indexed : ∀ name i, byName[name]? = some i ↔ ∃ p, p.name = name ∧ Newest profiles i p

theorem newest_concat {profiles : List RegistryProfile} {profile p : RegistryProfile} {i : Nat} :
    Newest (profiles ++ [profile]) i p ↔
      i = profiles.length ∧ p = profile ∨ Newest profiles i p ∧ profile.name ≠ p.name := by
  constructor
  · rintro ⟨hi, hlast⟩
    rcases Nat.lt_or_ge i profiles.length with hlt | hge
    · rw [List.getElem?_append_left hlt] at hi
      refine .inr ⟨⟨hi, fun j q hj hq => hlast j q hj ?_⟩, hlast _ _ hlt (by simp)⟩
      rw [List.getElem?_append_left (List.getElem?_eq_some_iff.mp hq).1, hq]
    · obtain rfl : i = profiles.length := by
        have hbound := (List.getElem?_eq_some_iff.mp hi).1
        rw [List.length_append, List.length_singleton] at hbound
        omega
      exact .inl ⟨rfl, by simpa using hi.symm⟩
  · rintro (⟨rfl, rfl⟩ | ⟨⟨hi, hlast⟩, hne⟩)
    · refine ⟨by simp, fun j q hj hq => ?_⟩
      have hbound := (List.getElem?_eq_some_iff.mp hq).1
      rw [List.length_append, List.length_singleton] at hbound
      omega
    · have hlt := (List.getElem?_eq_some_iff.mp hi).1
      refine ⟨by rw [List.getElem?_append_left hlt, hi], fun j q hj hq => ?_⟩
      rw [List.getElem?_append] at hq
      split at hq
      · exact hlast j q hj hq
      · have hbound := (List.getElem?_eq_some_iff.mp hq).1
        rw [List.length_singleton] at hbound
        obtain rfl : profile = q := by simpa [show j - profiles.length = 0 by omega] using hq
        exact hne

namespace ModelRegistry

def new : ModelRegistry := ⟨[], ∅, none, fun name i => by simp [Newest]⟩

/-- A later profile of the same name replaces the earlier one in the index, not in the list. -/
def register (r : ModelRegistry) (profile : RegistryProfile) : ModelRegistry where
  profiles := r.profiles ++ [profile]
  byName := r.byName.insert profile.name r.profiles.length
  defaultName := r.defaultName
  indexed name i := by
    simp only [newest_concat, Std.ExtTreeMap.getElem?_insert, compare_eq_iff_eq]
    split
    case isTrue hname =>
      constructor
      · intro hi
        exact ⟨profile, hname, .inl ⟨(Option.some.inj hi).symm, rfl⟩⟩
      · rintro ⟨p, hp, ⟨rfl, -⟩ | ⟨-, hne⟩⟩
        · rfl
        · exact absurd (hname.trans hp.symm) hne
    case isFalse hname =>
      rw [r.indexed]
      constructor
      · rintro ⟨p, hp, hnewest⟩
        exact ⟨p, hp, .inr ⟨hnewest, fun heq => hname (heq.trans hp)⟩⟩
      · rintro ⟨p, hp, ⟨-, rfl⟩ | ⟨hnewest, -⟩⟩
        · exact absurd hp hname
        · exact ⟨p, hp, hnewest⟩

def setDefault (r : ModelRegistry) (name : String) : ModelRegistry := { r with defaultName := some name }

def get (r : ModelRegistry) (name : String) : Option RegistryProfile := r.byName[name]?.bind fun i => r.profiles[i]?

/-- What comes after the last `/`. -/
def stripProviderPrefix (input : String) : String :=
  String.ofList (input.toList.reverse.takeWhile (· ≠ '/')).reverse

/-- One turn of the scan for the longest family; of two of one length the later is kept. -/
def familyTurn (name : String) (best : Option (Nat × Nat)) (entry : RegistryProfile × Nat) : Option (Nat × Nat) :=
  match entry.1.family with
  | none => best
  | some family =>
    if family.isEmpty || !family.toList.isPrefixOf name.toList then best
    else
      match best with
      | some (bestLen, _) => if family.utf8ByteSize < bestLen then best else some (family.utf8ByteSize, entry.2)
      | none => some (family.utf8ByteSize, entry.2)

def familyMatch (r : ModelRegistry) (name : String) : Option RegistryProfile :=
  (r.profiles.zipIdx.foldl (familyTurn name) none).bind fun best => r.profiles[best.2]?

def defaultProfile (r : ModelRegistry) : Option RegistryProfile :=
  (r.defaultName.bind r.get).or r.profiles.head?

/-- There is no answer where the registry is empty. -/
def resolveWithOutcome (r : ModelRegistry) (input : String) : Option (Resolution × RegistryProfile) :=
  let normalized := stripProviderPrefix input
  match r.get normalized with
  | some p => some (.exactName, p)
  | none =>
    match r.familyMatch normalized with
    | some p => some (.familyFallback, p)
    | none => r.defaultProfile.map fun p => (.defaultFallback, p)

def resolve (r : ModelRegistry) (input : String) : Option RegistryProfile := (r.resolveWithOutcome input).map (·.2)

/-- A registry with a profile resolves every name. -/
theorem resolve_isSome {r : ModelRegistry} (h : r.profiles ≠ []) (name : String) : (r.resolve name).isSome := by
  have hdefault : r.defaultProfile.isSome := by
    rw [defaultProfile, Option.isSome_or, Bool.or_eq_true, List.isSome_head?]
    exact .inr h
  rw [resolve, resolveWithOutcome, Option.isSome_map]
  split
  · rfl
  · split
    · rfl
    · rw [Option.isSome_map]
      exact hdefault

/-- The calls that change a registry. -/
inductive Call
  | register (profile : RegistryProfile)
  | setDefault (name : String)

def call (r : ModelRegistry) : Call → ModelRegistry
  | .register profile => r.register profile
  | .setDefault name => r.setDefault name

/-- The registry that some calls make. -/
def made (calls : List Call) : ModelRegistry := calls.foldl call new

/-! ### What is current -/

variable {r : ModelRegistry} {p q : RegistryProfile} {name input family : String} {i : Nat}

/-- The profile is the last one registered under its name. -/
def Current (r : ModelRegistry) (p : RegistryProfile) : Prop := ∃ i, Newest r.profiles i p

theorem get_eq_some : r.get name = some p ↔ p.name = name ∧ r.Current p := by
  rw [get, Option.bind_eq_some_iff]
  constructor
  · rintro ⟨i, hi, hp⟩
    obtain ⟨p', hname, hnewest⟩ := (r.indexed name i).mp hi
    obtain rfl : p' = p := Option.some.inj (hnewest.1.symm.trans hp)
    exact ⟨hname, i, hnewest⟩
  · rintro ⟨hname, i, hnewest⟩
    exact ⟨i, (r.indexed name i).mpr ⟨p, hname, hnewest⟩, hnewest.1⟩

theorem exists_newest {profiles : List RegistryProfile} (hp : p ∈ profiles) :
    ∃ i q, q.name = p.name ∧ Newest profiles i q := by
  induction profiles using List.reverseRecOn with
  | nil => simp at hp
  | append_singleton profiles profile ih =>
    by_cases hname : profile.name = p.name
    · exact ⟨_, profile, hname, newest_concat.mpr (.inl ⟨rfl, rfl⟩)⟩
    · have hmem : p ∈ profiles := by
        rcases List.mem_append.mp hp with hmem | hlast
        · exact hmem
        · exact absurd (congrArg (·.name) (List.mem_singleton.mp hlast).symm) hname
      obtain ⟨i, q, hq, hnewest⟩ := ih hmem
      exact ⟨i, q, hq, newest_concat.mpr (.inr ⟨hnewest, fun heq => hname (heq.trans hq)⟩)⟩

/-- A registered name has a current profile, and other names have none. -/
theorem get_eq_none : r.get name = none ↔ ∀ p ∈ r.profiles, p.name ≠ name := by
  constructor
  · rintro hnone p hp rfl
    obtain ⟨i, q, hq, hnewest⟩ := exists_newest hp
    simp [get_eq_some.mpr ⟨hq, i, hnewest⟩] at hnone
  · intro hall
    refine Option.eq_none_iff_forall_ne_some.mpr fun p hp => ?_
    obtain ⟨hname, i, hnewest⟩ := get_eq_some.mp hp
    exact hall p (List.mem_of_getElem? hnewest.1) hname

/-! ### The family scan -/

/-- The profile's family is a prefix of the name, and not the empty one. -/
def Serves (p : RegistryProfile) (name family : String) : Prop :=
  p.family = some family ∧ family ≠ "" ∧ family.toList <+: name.toList

/-- The profile at `i` has the longest family that serves the name, and is the last that has it. -/
def Preferred (profiles : List RegistryProfile) (name : String) (i : Nat) (p : RegistryProfile) (family : String) :
    Prop :=
  profiles[i]? = some p ∧ Serves p name family ∧ ∀ j q g, profiles[j]? = some q → Serves q name g →
    g.utf8ByteSize < family.utf8ByteSize ∨ g.utf8ByteSize = family.utf8ByteSize ∧ j ≤ i

/-- What the scan has found in the profiles it has seen. -/
def Scanned (profiles : List RegistryProfile) (name : String) : Option (Nat × Nat) → Prop
  | none => ∀ q ∈ profiles, ∀ g, ¬Serves q name g
  | some (len, i) => ∃ p family, Preferred profiles name i p family ∧ family.utf8ByteSize = len

theorem familyTurn_of_serves {best : Option (Nat × Nat)} (h : Serves p name family) : familyTurn name best (p, i) =
    match best with
    | some (bestLen, _) => if family.utf8ByteSize < bestLen then best else some (family.utf8ByteSize, i)
    | none => some (family.utf8ByteSize, i) := by
  obtain ⟨hfamily, hne, hbegins⟩ := h
  rw [familyTurn, hfamily]
  simp [hne, List.isPrefixOf_iff_prefix.mpr hbegins]

theorem familyTurn_of_not_serves {best : Option (Nat × Nat)} (h : ∀ family, ¬Serves p name family) :
    familyTurn name best (p, i) = best := by
  rw [familyTurn]
  cases hfamily : p.family with
  | none => rfl
  | some family =>
    have hno : family = "" ∨ ¬family.toList <+: name.toList := by
      by_contra hyes
      push Not at hyes
      exact h family ⟨hfamily, hyes⟩
    rcases hno with rfl | hno
    · rfl
    · have hbegins : family.toList.isPrefixOf name.toList = false := by
        rwa [Bool.eq_false_iff, ne_eq, List.isPrefixOf_iff_prefix]
      simp [hbegins]

/-- One turn of the scan, of two profiles that both serve the name. -/
theorem scanned_turn {profiles : List RegistryProfile} {best : Option (Nat × Nat)} (h : Scanned profiles name best) :
    Scanned (profiles ++ [p]) name (familyTurn name best (p, profiles.length)) := by
  have hat : ∀ {j : Nat} {q}, (profiles ++ [p])[j]? = some q → profiles[j]? = some q ∧ j < profiles.length ∨
      j = profiles.length ∧ q = p := by
    intro j q hq
    rw [List.getElem?_append] at hq
    split at hq
    case isTrue hlt => exact .inl ⟨hq, hlt⟩
    case isFalse hge =>
      have hbound := (List.getElem?_eq_some_iff.mp hq).1
      rw [List.length_singleton] at hbound
      exact .inr ⟨by omega, by simpa [show j - profiles.length = 0 by omega] using hq.symm⟩
  by_cases hserves : ∃ family, Serves p name family
  · obtain ⟨family, hserves⟩ := hserves
    have hown : ∀ {g}, Serves p name g → g = family := fun hg => Option.some.inj (hg.1.symm.trans hserves.1)
    rw [familyTurn_of_serves hserves]
    have hlast : (∀ (j : Nat) q g, profiles[j]? = some q → Serves q name g → g.utf8ByteSize ≤ family.utf8ByteSize) →
        Scanned (profiles ++ [p]) name (some (family.utf8ByteSize, profiles.length)) := by
      intro hle
      refine ⟨p, family, ⟨by simp, hserves, fun j q g hq hg => ?_⟩, rfl⟩
      rcases hat hq with ⟨hq, hlt⟩ | ⟨rfl, rfl⟩
      · have := hle j q g hq hg
        omega
      · exact .inr ⟨by rw [hown hg], le_rfl⟩
    match best, h with
    | none, h => exact hlast fun j q g hq hg => absurd hg (h q (List.mem_of_getElem? hq) g)
    | some (bestLen, i), ⟨p', family', ⟨hi, hserves', hmost⟩, hlen⟩ =>
      dsimp only
      split
      case isTrue hlt =>
        have hin := (List.getElem?_eq_some_iff.mp hi).1
        refine ⟨p', family', ⟨by rw [List.getElem?_append_left hin, hi], hserves', fun j q g hq hg => ?_⟩, hlen⟩
        rcases hat hq with ⟨hq, -⟩ | ⟨rfl, rfl⟩
        · exact hmost j q g hq hg
        · exact .inl (by rw [hown hg, hlen]; exact hlt)
      case isFalse hge =>
        refine hlast fun j q g hq hg => ?_
        have := hmost j q g hq hg
        omega
  · push Not at hserves
    rw [familyTurn_of_not_serves hserves]
    match best, h with
    | none, h =>
      intro q hq g hg
      rcases List.mem_append.mp hq with hq | hq
      · exact h q hq g hg
      · exact hserves g (List.mem_singleton.mp hq ▸ hg)
    | some (bestLen, i), ⟨p', family', ⟨hi, hserves', hmost⟩, hlen⟩ =>
      have hin := (List.getElem?_eq_some_iff.mp hi).1
      refine ⟨p', family', ⟨by rw [List.getElem?_append_left hin, hi], hserves', fun j q g hq hg => ?_⟩, hlen⟩
      rcases hat hq with ⟨hq, -⟩ | ⟨rfl, rfl⟩
      · exact hmost j q g hq hg
      · exact absurd hg (hserves g)

theorem scanned (profiles : List RegistryProfile) (name : String) :
    Scanned profiles name (profiles.zipIdx.foldl (familyTurn name) none) := by
  induction profiles using List.reverseRecOn with
  | nil => simp [Scanned]
  | append_singleton profiles p ih =>
    rw [List.zipIdx_append, List.foldl_append]
    simpa using scanned_turn ih

theorem familyMatch_eq_none : r.familyMatch name = none ↔ ∀ q ∈ r.profiles, ∀ g, ¬Serves q name g := by
  have h := scanned r.profiles name
  rw [familyMatch]
  match r.profiles.zipIdx.foldl (familyTurn name) none, h with
  | none, h => exact ⟨fun _ => h, fun _ => rfl⟩
  | some (_, i), ⟨p, family, ⟨hi, hserves, _⟩, _⟩ =>
    constructor
    · intro hnone
      simp [hi] at hnone
    · intro hall
      exact absurd hserves (hall p (List.mem_of_getElem? hi) family)

theorem familyMatch_eq_some : r.familyMatch name = some p ↔ ∃ i family, Preferred r.profiles name i p family := by
  have h := scanned r.profiles name
  rw [familyMatch]
  match r.profiles.zipIdx.foldl (familyTurn name) none, h with
  | none, h =>
    constructor
    · intro hp
      simp at hp
    · rintro ⟨i, family, hi, hserves, -⟩
      exact absurd hserves (h p (List.mem_of_getElem? hi) family)
  | some (_, i), ⟨p', family', ⟨hi, hserves, hmost⟩, _⟩ =>
    constructor
    · intro hp
      obtain rfl : p' = p := Option.some.inj (hi.symm.trans hp)
      exact ⟨i, family', hi, hserves, hmost⟩
    · rintro ⟨j, family, hj, hserves', hmost'⟩
      have hle := hmost j p family hj hserves'
      have hge := hmost' i p' family' hi hserves
      obtain rfl : i = j := by omega
      exact hj

/-! ### Replaced profiles -/

/-- The name resolves to a profile that no other replaced: it is registered, or the last profile with the longest family
that serves it is current, or no family serves it, and the default name is registered or the first profile current. -/
def ResolvesCurrent (r : ModelRegistry) (input : String) : Prop :=
  (∃ p ∈ r.profiles, p.name = stripProviderPrefix input) ∨
  (∃ i p family, Preferred r.profiles (stripProviderPrefix input) i p family ∧ r.Current p) ∨
  (∀ p ∈ r.profiles, ∀ family, ¬Serves p (stripProviderPrefix input) family) ∧
    ((∃ p ∈ r.profiles, r.defaultName = some p.name) ∨ ∃ p, r.profiles.head? = some p ∧ r.Current p)

theorem get_name_eq_some : r.get p.name = some p ↔ r.Current p := by
  simp [get_eq_some]

theorem defaultProfile_coherent (hfull : r.profiles ≠ []) : ∃ p, r.defaultProfile = some p ∧ (r.get p.name = some p ↔
    (∃ p ∈ r.profiles, r.defaultName = some p.name) ∨ ∃ p, r.profiles.head? = some p ∧ r.Current p) := by
  rw [defaultProfile]
  cases hdefault : r.defaultName.bind r.get with
  | some p =>
    obtain ⟨name, hname, hget⟩ := Option.bind_eq_some_iff.mp hdefault
    obtain ⟨rfl, i, hnewest⟩ := get_eq_some.mp hget
    exact ⟨p, rfl, fun _ => .inl ⟨p, List.mem_of_getElem? hnewest.1, hname⟩, fun _ => hget⟩
  | none =>
    obtain ⟨p, profiles, hfirst⟩ := List.exists_cons_of_ne_nil hfull
    have hhead : r.profiles.head? = some p := by rw [hfirst]; rfl
    refine ⟨p, by simp [hhead], ?_⟩
    rw [get_name_eq_some]
    constructor
    · exact fun hcurrent => .inr ⟨p, hhead, hcurrent⟩
    · rintro (⟨q, hq, hname⟩ | ⟨q, hq, hcurrent⟩)
      · have hnone : r.get q.name = none := by simpa [hname] using hdefault
        exact absurd rfl (get_eq_none.mp hnone q hq)
      · exact Option.some.inj (hhead.symm.trans hq) ▸ hcurrent

theorem profiles_ne_nil {calls : List Call} (h : ∃ p, .register p ∈ calls) : (made calls).profiles ≠ [] := by
  have hgrow : ∀ (calls : List Call) (r : ModelRegistry), r.profiles ≠ [] → (calls.foldl call r).profiles ≠ [] := by
    intro calls
    induction calls with
    | nil => exact fun r hr => hr
    | cons c calls ih =>
      intro r hr
      refine ih _ ?_
      cases c with
      | register profile => simp [call, register]
      | setDefault name => exact hr
  obtain ⟨p, hp⟩ := h
  obtain ⟨before, after, rfl⟩ := List.append_of_mem hp
  rw [made, List.foldl_append, List.foldl_cons]
  exact hgrow after _ (by simp [call, register])

/-- After any calls that register a profile, every name is resolved, and to a current profile exactly where what the
scan of the family or the default finds was not replaced. -/
theorem resolve_coherent_iff {calls : List Call} (input : String) (h : ∃ p, .register p ∈ calls) :
    ∃ p, (made calls).resolve input = some p ∧
      ((made calls).get p.name = some p ↔ (made calls).ResolvesCurrent input) := by
  generalize hr : made calls = r
  have hfull : r.profiles ≠ [] := hr ▸ profiles_ne_nil h
  rw [resolve, resolveWithOutcome]
  cases hget : r.get (stripProviderPrefix input) with
  | some p =>
    obtain ⟨hname, i, hnewest⟩ := get_eq_some.mp hget
    exact ⟨p, rfl, fun _ => .inl ⟨p, List.mem_of_getElem? hnewest.1, hname⟩, fun _ => hname ▸ hget⟩
  | none =>
    have hunknown : ¬∃ p ∈ r.profiles, p.name = stripProviderPrefix input := by simpa using get_eq_none.mp hget
    cases hfamily : r.familyMatch (stripProviderPrefix input) with
    | some p =>
      refine ⟨p, rfl, ?_⟩
      rw [get_name_eq_some]
      constructor
      · intro hcurrent
        obtain ⟨i, family, hpreferred⟩ := familyMatch_eq_some.mp hfamily
        exact .inr (.inl ⟨i, p, family, hpreferred, hcurrent⟩)
      · rintro (hknown | ⟨i, q, family, hpreferred, hcurrent⟩ | ⟨hnone, -⟩)
        · exact absurd hknown hunknown
        · have hsame := hfamily.symm.trans (familyMatch_eq_some.mpr ⟨i, family, hpreferred⟩)
          exact Option.some.inj hsame ▸ hcurrent
        · simp [familyMatch_eq_none.mpr hnone] at hfamily
    | none =>
      have hnone := familyMatch_eq_none.mp hfamily
      obtain ⟨p, hp, hiff⟩ := defaultProfile_coherent hfull
      refine ⟨p, by simp [hp], hiff.trans ⟨fun hdefault => .inr (.inr ⟨hnone, hdefault⟩), ?_⟩⟩
      rintro (hknown | ⟨i, q, family, hpreferred, -⟩ | ⟨-, hdefault⟩)
      · exact absurd hknown hunknown
      · exact absurd hpreferred.2.1 (hnone q (List.mem_of_getElem? hpreferred.1) family)
      · exact hdefault

/-! ### An override without a family -/

def claudeProfile (maxContextTokens : TokenCount) (family : Option String) : RegistryProfile where
  name := "claude-sonnet-4-6"
  maxContextTokens
  reservedOutputTokens := ⟨8192, by decide⟩
  safetyMarginTokens := .zero
  tokenizer := "cl100k_base"
  supportsSystemRole := true
  supportsTools := true
  family

/-- A built-in profile and one of the same name that replaces it. -/
def overriding : List Call :=
  [.register (claudeProfile ⟨200000, by decide⟩ (some "claude-sonnet")),
    .register (claudeProfile ⟨100000, by decide⟩ none)]

/-- The replaced profile is still what its family resolves to, and what unknown names resolve to. -/
theorem resolves_replaced :
    (∃ p, (made overriding).resolve "anthropic/claude-sonnet-4-9" = some p ∧ (made overriding).get p.name ≠ some p) ∧
    ∃ p, (made overriding).resolve "llama" = some p ∧ (made overriding).get p.name ≠ some p := by
  let replaced := claudeProfile ⟨200000, by decide⟩ (some "claude-sonnet")
  have hget : (made overriding).get "claude-sonnet-4-6" ≠ some replaced := by decide +kernel
  exact ⟨⟨replaced, by decide +kernel, hget⟩, ⟨replaced, by decide +kernel, hget⟩⟩

/-- The full name of the override. -/
theorem resolve_coherent_iff_sample : ∃ p, (made overriding).resolve "anthropic/claude-sonnet-4-6" = some p ∧
    ((made overriding).get p.name = some p ↔ (made overriding).ResolvesCurrent "anthropic/claude-sonnet-4-6") :=
  resolve_coherent_iff _ ⟨_, List.mem_cons_self⟩

end ModelRegistry

end Llm386
