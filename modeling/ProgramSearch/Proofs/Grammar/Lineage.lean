import ProgramSearch.Grammar.Lineage
import ProgramSearch.Proofs.Grammar.ReadBack

namespace ProgramSearch

/-!
# Which symbols coincide

A symbol is told apart by the identity of its grammar and its position there.  A copy keeps
the identity, so a grammar and its copy may mint equal symbols once they have parted; in every
other case two mintings give two symbols.  A rule that refers to a symbol of another descent
makes its grammar invalid for good.  One that refers to a symbol of a copy may not be noticed,
or it may be met only by a lookup that breaks off.
-/

namespace Grammar

/-! ## A rule that refers to another grammar is not forgotten -/

/-- Some rule, dropped or not, refers to a symbol under another identity. -/
def RefersAbroad (grammar : Grammar) : Prop :=
  grammar.foreignHead = true ∨ ∃ head ∈ grammar.heads, ∃ body ∈ grammar.alternatives head,
    ∃ symbol ∈ body, symbol.owner ≠ grammar.identity

namespace RefersAbroad

variable {grammar : Grammar}

/-- Such a rule is met before any lookup, so validation does not break off. -/
theorem validate? (abroad : grammar.RefersAbroad) :
    ∃ name, grammar.validate? = some (.error (.foreignSymbol name)) := by
  unfold Grammar.validate?
  split
  · exact ⟨_, rfl⟩
  · rename_i native
    rcases abroad with dropped | ⟨head, among, body, alternative, symbol, member, foreign⟩
    · exact absurd dropped native
    · have mentions : grammar.mentionsAbroad head = true := by
        rw [mentionsAbroad, List.any_eq_true]
        exact ⟨body, alternative, List.any_eq_true.mpr ⟨symbol, member, decide_eq_true foreign⟩⟩
      split
      · exact ⟨_, rfl⟩
      · rename_i none
        exact absurd mentions (List.find?_eq_none.mp none head among)

theorem mint (abroad : grammar.RefersAbroad) (name : String) :
    (grammar.mint name).2.RefersAbroad := by
  apply abroad.imp_right
  rintro ⟨head, among, body, alternative, foreign⟩
  refine ⟨head, among, body, ?_, foreign⟩
  rw [alternatives_mint]
  exact alternative

theorem addRule (abroad : grammar.RefersAbroad) (head : Symbol) (body : List Symbol) :
    (grammar.addRule head body).RefersAbroad := by
  rcases abroad with dropped | ⟨other, among, earlier, alternative, symbol, member, foreign⟩
  · left
    rw [foreignHead_addRule, dropped, Bool.true_or]
  · right
    refine ⟨other, ?_, earlier, ?_, symbol, member, ?_⟩
    · exact (grammar.mem_heads_addRule head body other).mpr (Or.inl among)
    · rw [alternatives_addRule]
      split
      · exact List.mem_append_left _ alternative
      · exact alternative
    · rw [identity_addRule]
      exact foreign

theorem foldl_extend (abroad : grammar.RefersAbroad) (steps : List GrammarStep) :
    (steps.foldl extend grammar).RefersAbroad := by
  induction steps generalizing grammar with
  | nil => exact abroad
  | cons step steps ih =>
      apply ih
      cases step with
      | symbol name => exact abroad.mint name
      | rule head body => exact abroad.addRule head body

/-- A rule with a symbol under another identity on either side. -/
theorem of_rule {head : Symbol} {body : List Symbol} {symbol : Symbol}
    (member : symbol ∈ head :: body) (foreign : symbol.owner ≠ grammar.identity) :
    (grammar.addRule head body).RefersAbroad := by
  by_cases own : grammar.owns head = true
  · right
    refine ⟨head, ?_, body, ?_, symbol, ?_, ?_⟩
    · exact (grammar.mem_heads_addRule head body head).mpr (Or.inr ⟨rfl, own⟩)
    · rw [alternatives_addRule, if_pos ⟨rfl, own⟩]
      exact List.mem_append_right _ List.mem_cons_self
    · rcases List.mem_cons.mp member with rfl | inside
      · exact absurd (owner_of_owns own) foreign
      · exact inside
    · rw [identity_addRule]
      exact foreign
  · left
    rw [foreignHead_addRule, Bool.eq_false_iff.mpr own, Bool.not_false, Bool.or_true]

end RefersAbroad

end Grammar

namespace Registry

/-! ## What a step leaves of each grammar -/

section Step

variable (registry : Registry) {index : Nat} {grammar : Grammar}

/-- A step changes a grammar that is there by at most one step of its own. -/
theorem exists_grammars_extend (step : RegistryStep)
    (here : registry.grammars[index]? = some grammar) :
    ∃ changes : List GrammarStep,
      (registry.extend step).grammars[index]? = some (changes.foldl Grammar.extend grammar) := by
  have within : index < registry.grammars.size := (Array.getElem?_eq_some_iff.mp here).1
  cases step with
  | create startName =>
      refine ⟨[], ?_⟩
      rw [extend, create, add, Array.getElem?_push, if_neg (Nat.ne_of_lt within)]
      exact here
  | copy original =>
      refine ⟨[], ?_⟩
      rw [extend, copy]
      split
      · exact here
      · rw [Array.getElem?_push, if_neg (Nat.ne_of_lt within)]
        exact here
  | mint minting name =>
      rw [extend, mint]
      cases found : registry.grammars[minting]? with
      | none => exact ⟨[], here⟩
      | some other =>
          by_cases same : minting = index
          · subst same
            rw [here] at found
            cases found
            refine ⟨[.symbol name], ?_⟩
            exact Array.getElem?_setIfInBounds_self_of_lt within
          · refine ⟨[], ?_⟩
            exact (Array.getElem?_setIfInBounds_ne same).trans here
  | rule changed head body =>
      rw [extend, addRule, Array.getElem?_modify]
      by_cases same : changed = index
      · refine ⟨[.rule head body], ?_⟩
        rw [if_pos same, here]
        rfl
      · refine ⟨[], ?_⟩
        rw [if_neg same]
        exact here

theorem fresh_le_extend (step : RegistryStep) :
    registry.fresh ≤ (registry.extend step).fresh := by
  cases step with
  | create startName => exact Nat.le_succ _
  | copy original =>
      rw [extend, copy]
      split <;> exact Nat.le_refl _
  | mint minting name =>
      rw [extend, mint]
      cases registry.grammars[minting]? <;> exact Nat.le_refl _
  | rule changed head body => exact Nat.le_refl _

end Step

theorem getElem?_descend {origins : List Nat} {index : Nat} (within : index < origins.length)
    (step : RegistryStep) : (descend origins step)[index]? = origins[index]? := by
  cases step with
  | create startName => exact List.getElem?_append_left within
  | copy original => exact List.getElem?_append_left within
  | mint minting name => rfl
  | rule changed head body => rfl

theorem length_descend {registry : Registry} {origins : List Nat}
    (size : origins.length = registry.grammars.size) (step : RegistryStep) :
    (descend origins step).length = (registry.extend step).grammars.size := by
  cases step with
  | create startName =>
      rw [descend, List.length_append, List.length_singleton, size, extend, create, add,
        Array.size_push]
  | copy original =>
      rw [descend, List.length_append, extend, copy]
      cases found : registry.grammars[original]? with
      | none =>
          rw [List.getElem?_eq_none (size ▸ Array.getElem?_eq_none_iff.mp found)]
          exact size
      | some grammar =>
          have within := size ▸ (Array.getElem?_eq_some_iff.mp found).1
          rw [List.getElem?_eq_getElem within, Array.size_push, size]
          rfl
  | mint minting name =>
      rw [descend, extend, mint, size]
      cases registry.grammars[minting]? with
      | none => rfl
      | some grammar => exact Array.size_setIfInBounds.symm
  | rule changed head body =>
      rw [descend, extend, addRule, Array.size_modify, size]

/-- Behind a step every grammar has the identity and the descent of one that was there before,
or both are new. -/
theorem descent_extend {registry : Registry} {origins : List Nat}
    (size : origins.length = registry.grammars.size) (step : RegistryStep) {index : Nat}
    {grammar : Grammar} (there : (registry.extend step).grammars[index]? = some grammar) :
    (∃ (earlier : Nat) (original : Grammar), registry.grammars[earlier]? = some original ∧
        grammar.identity = original.identity ∧
          (descend origins step)[index]? = origins[earlier]?) ∨
      grammar.identity = registry.fresh ∧
        (registry.extend step).fresh = registry.fresh + 1 ∧
          (descend origins step)[index]? = some origins.length := by
  rcases Nat.lt_or_ge index registry.grammars.size with within | beyond
  · -- A grammar that was there before has been changed by steps of its own at most.
    left
    have here := Array.getElem?_eq_getElem within
    rcases registry.exists_grammars_extend step here with ⟨changes, changed⟩
    rw [there] at changed
    cases changed
    exact ⟨index, _, here, Grammar.identity_foldl_extend _ _,
      getElem?_descend (size ▸ within) step⟩
  · have none : registry.grammars[index]? = none := Array.getElem?_eq_none beyond
    cases step with
    | create startName =>
        right
        rw [extend, create, add, Array.getElem?_push] at there
        split at there
        · rename_i last
          cases there
          refine ⟨rfl, rfl, ?_⟩
          rw [descend, last, ← size, List.getElem?_concat_length]
        · rw [none] at there
          cases there
    | copy original =>
        left
        rw [extend, copy] at there
        split at there
        · rw [none] at there
          cases there
        · rename_i found
          rw [Array.getElem?_push] at there
          split at there
          · rename_i last
            cases there
            refine ⟨original, _, found, rfl, ?_⟩
            have within : original < origins.length :=
              size ▸ (Array.getElem?_eq_some_iff.mp found).1
            rw [descend, last, ← size, List.getElem?_eq_getElem within]
            exact List.getElem?_concat_length
          · rw [none] at there
            cases there
    | mint minting name =>
        rw [extend, mint] at there
        cases found : registry.grammars[minting]? with
        | none =>
            rw [found, Option.map_none, none] at there
            cases there
        | some other =>
            rw [found, Option.map_some] at there
            have within := (Array.getElem?_eq_some_iff.mp there).1
            rw [Array.size_setIfInBounds] at within
            exact absurd within (Nat.not_lt_of_le beyond)
    | rule changed head body =>
        have within := (Array.getElem?_eq_some_iff.mp there).1
        rw [extend, addRule, Array.size_modify] at within
        exact absurd within (Nat.not_lt_of_le beyond)

theorem lt_of_mem_descend {origins : List Nat}
    (known : ∀ origin ∈ origins, origin < origins.length) (step : RegistryStep) :
    ∀ origin ∈ descend origins step, origin < (descend origins step).length := by
  cases step with
  | create startName =>
      intro origin member
      rw [descend, List.length_append]
      rcases List.mem_append.mp member with old | new
      · exact Nat.lt_add_right _ (known origin old)
      · rw [List.mem_singleton.mp new]
        exact Nat.lt_succ_self _
  | copy original =>
      intro origin member
      rw [descend, List.length_append]
      apply Nat.lt_add_right
      rcases List.mem_append.mp member with old | copied
      · exact known origin old
      · exact known origin (List.mem_of_getElem? (Option.mem_toList.mp copied))
  | mint minting name => exact known
  | rule changed head body => exact known

/-- A minted symbol belongs to its grammar from then on, and did not before. -/
theorem owns_minting {registry : Registry} {step : RegistryStep} {minting : Minting}
    (minted : registry.minting? step = some minting) :
    (∃ grammar, (registry.extend step).grammars[minting.index]? = some grammar ∧
        grammar.owns minting.symbol = true) ∧
      ∀ grammar, registry.grammars[minting.index]? = some grammar →
        grammar.owns minting.symbol = false := by
  cases step with
  | create startName =>
      cases minted
      constructor
      · refine ⟨Grammar.create registry.fresh startName, Array.getElem?_push_size, ?_⟩
        rw [Grammar.owns_iff_mem_minted]
        exact List.mem_cons_self
      · intro grammar here
        rw [Array.getElem?_size] at here
        cases here
  | copy original => cases minted
  | mint index name =>
      cases found : registry.grammars[index]? with
      | none =>
          rw [minting?, mint, found] at minted
          cases minted
      | some grammar =>
          rw [minting?, mint, found] at minted
          cases minted
          constructor
          · refine ⟨(grammar.mint name).2, ?_, ?_⟩
            · rw [extend, mint, found]
              exact Array.getElem?_setIfInBounds_self_of_lt (Array.getElem?_eq_some_iff.mp found).1
            · rw [Grammar.owns_iff_mem_minted, Grammar.minted_mint]
              exact List.mem_append_right _ List.mem_cons_self
          · intro other here
            rw [found] at here
            cases here
            exact grammar.owns_mint_eq_false name
  | rule changed head body => cases minted

/-! ## What every registry knows of its symbols -/

/-- Identities tell descents apart, and equal symbols were minted by two grammars of one
descent. -/
structure Traced (registry : Registry) (origins : List Nat) (minted : List Minting) : Prop where
  size : origins.length = registry.grammars.size
  known : ∀ origin ∈ origins, origin < origins.length
  below : ∀ {index : Nat} {grammar : Grammar}, registry.grammars[index]? = some grammar →
    grammar.identity < registry.fresh
  told : ∀ {one other : Nat} {grammar second : Grammar},
    registry.grammars[one]? = some grammar → registry.grammars[other]? = some second →
      (grammar.identity = second.identity ↔ origins[one]? = origins[other]?)
  owned : ∀ minting ∈ minted, ∃ grammar,
    registry.grammars[minting.index]? = some grammar ∧ grammar.owns minting.symbol = true
  apart : minted.Pairwise fun earlier later => earlier.symbol = later.symbol →
    earlier.index ≠ later.index ∧ origins[earlier.index]? = origins[later.index]?

namespace Traced

variable {registry : Registry} {origins : List Nat} {minted : List Minting}

theorem empty : Traced Registry.empty [] [] where
  size := rfl
  known := List.forall_mem_nil _
  below here := by cases here
  told here := by cases here
  owned := List.forall_mem_nil _
  apart := List.Pairwise.nil

theorem getElem?_lt (traced : Traced registry origins minted) {index : Nat} {grammar : Grammar}
    (here : registry.grammars[index]? = some grammar) :
    ∃ origin, origins[index]? = some origin ∧ origin < origins.length := by
  have within : index < origins.length :=
    traced.size ▸ (Array.getElem?_eq_some_iff.mp here).1
  exact ⟨_, List.getElem?_eq_getElem within, traced.known _ (List.getElem_mem within)⟩

theorem told_extend (traced : Traced registry origins minted) (step : RegistryStep)
    {one other : Nat} {grammar second : Grammar}
    (here : (registry.extend step).grammars[one]? = some grammar)
    (there : (registry.extend step).grammars[other]? = some second) :
    grammar.identity = second.identity ↔
      (descend origins step)[one]? = (descend origins step)[other]? := by
  -- A grammar from before and a new one differ in both: an identity from before is below
  -- the fresh one, and an origin from before below the number of grammars.
  rcases descent_extend traced.size step here with
    ⟨oneBefore, oneGrammar, oneFound, oneIdentity, oneOrigin⟩ | ⟨oneIdentity, -, oneOrigin⟩ <;>
  rcases descent_extend traced.size step there with
    ⟨otherBefore, otherGrammar, otherFound, otherIdentity, otherOrigin⟩ |
      ⟨otherIdentity, -, otherOrigin⟩ <;>
  rw [oneIdentity, oneOrigin, otherIdentity, otherOrigin]
  · exact traced.told oneFound otherFound
  · rcases traced.getElem?_lt oneFound with ⟨origin, found, lower⟩
    rw [found, Option.some_inj]
    exact iff_of_false (Nat.ne_of_lt (traced.below oneFound)) (Nat.ne_of_lt lower)
  · rcases traced.getElem?_lt otherFound with ⟨origin, found, lower⟩
    rw [found, Option.some_inj]
    exact iff_of_false (Nat.ne_of_gt (traced.below otherFound)) (Nat.ne_of_gt lower)
  · exact iff_of_true rfl rfl

theorem owned_extend (traced : Traced registry origins minted) (step : RegistryStep) :
    ∀ minting ∈ minted ++ (registry.minting? step).toList, ∃ grammar,
      (registry.extend step).grammars[minting.index]? = some grammar ∧
        grammar.owns minting.symbol = true := by
  intro minting member
  rcases List.mem_append.mp member with old | new
  · rcases traced.owned minting old with ⟨grammar, here, own⟩
    rcases registry.exists_grammars_extend step here with ⟨changes, changed⟩
    exact ⟨_, changed, Grammar.owns_foldl_extend own changes⟩
  · exact (owns_minting (Option.mem_toList.mp new)).1

/-- A symbol minted now equals an earlier one only if another grammar of the same descent
minted that. -/
theorem apart_minting (traced : Traced registry origins minted) {step : RegistryStep}
    {earlier later : Minting} (before : earlier ∈ minted)
    (new : registry.minting? step = some later) (equal : earlier.symbol = later.symbol) :
    earlier.index ≠ later.index ∧
      (descend origins step)[earlier.index]? = (descend origins step)[later.index]? := by
  have fresh := owns_minting new
  constructor
  · intro same
    rcases traced.owned earlier before with ⟨grammar, here, own⟩
    have unowned := fresh.2 grammar (same ▸ here)
    rw [← equal, own] at unowned
    cases unowned
  · rcases traced.owned_extend step earlier (List.mem_append_left _ before) with
      ⟨grammar, here, own⟩
    rcases fresh.1 with ⟨second, there, ownSecond⟩
    apply (traced.told_extend step here there).mp
    rw [← Grammar.owner_of_owns own, ← Grammar.owner_of_owns ownSecond, equal]

theorem extend (traced : Traced registry origins minted) (step : RegistryStep) :
    Traced (registry.extend step) (descend origins step)
      (minted ++ (registry.minting? step).toList) where
  size := length_descend traced.size step
  known := lt_of_mem_descend traced.known step
  below := by
    intro index grammar there
    rcases descent_extend traced.size step there with
      ⟨earlier, original, found, same, -⟩ | ⟨new, grown, -⟩
    · rw [same]
      exact Nat.lt_of_lt_of_le (traced.below found) (registry.fresh_le_extend step)
    · rw [new, grown]
      exact Nat.lt_succ_self _
  told := traced.told_extend step
  owned := traced.owned_extend step
  apart := by
    rw [List.pairwise_append]
    refine ⟨?_, ?_, ?_⟩
    · -- The descent of a grammar that was there before is not changed by the step.
      apply traced.apart.imp_of_mem
      intro earlier later before behind apart equal
      rcases traced.owned earlier before with ⟨grammar, here, -⟩
      rcases traced.owned later behind with ⟨second, there, -⟩
      rw [getElem?_descend (traced.size ▸ (Array.getElem?_eq_some_iff.mp here).1) step,
        getElem?_descend (traced.size ▸ (Array.getElem?_eq_some_iff.mp there).1) step]
      exact apart equal
    · cases registry.minting? step with
      | none => exact List.Pairwise.nil
      | some minting => exact List.pairwise_singleton _ _
    · intro earlier before later new
      exact traced.apart_minting before (Option.mem_toList.mp new)

theorem foldl_extend (traced : Traced registry origins minted) (steps : List RegistryStep) :
    Traced (steps.foldl Registry.extend registry) (steps.foldl descend origins)
      (minted ++ registry.mintings steps) := by
  induction steps generalizing registry origins minted with
  | nil =>
      rw [mintings, List.append_nil]
      exact traced
  | cons step steps ih =>
      rw [mintings, ← List.append_assoc]
      exact ih (traced.extend step)

end Traced

theorem traced_build (steps : List RegistryStep) :
    Traced (build steps) (origins steps) (empty.mintings steps) :=
  Traced.empty.foldl_extend steps

theorem exists_grammars_foldl_extend {registry : Registry} {index : Nat} {grammar : Grammar}
    (here : registry.grammars[index]? = some grammar) (steps : List RegistryStep) :
    ∃ changes : List GrammarStep,
      (steps.foldl extend registry).grammars[index]? =
        some (changes.foldl Grammar.extend grammar) := by
  induction steps generalizing registry grammar with
  | nil => exact ⟨[], here⟩
  | cons step steps ih =>
      rcases registry.exists_grammars_extend step here with ⟨changes, changed⟩
      rcases ih changed with ⟨more, final⟩
      exact ⟨changes ++ more, by rw [List.foldl_append]; exact final⟩

/-! ## Steps that do not break off -/

/-- Adding a rule that finds its head is adding a rule. -/
theorem addRule?_eq_some {registry later : Registry} {index : Nat} {head : Symbol}
    {body : List Symbol} (added : registry.addRule? index head body = some later) :
    later = registry.addRule index head body := by
  rw [addRule?] at added
  rw [addRule]
  split at added
  · rename_i absent
    cases added
    refine congrArg (Registry.mk · registry.fresh) (Array.ext_getElem? fun other => ?_)
    rw [Array.getElem?_modify]
    split
    · rename_i same
      rw [← same, absent]
      rfl
    · rfl
  · rename_i grammar here
    rcases Option.map_eq_some_iff.mp added with ⟨ruled, found, rfl⟩
    rw [Grammar.addRule?_eq_some found]
    refine congrArg (Registry.mk · registry.fresh) (Array.ext_getElem? fun other => ?_)
    rw [Array.getElem?_modify, Array.getElem?_setIfInBounds]
    split
    · rename_i same
      rw [← same, here, if_pos (Array.getElem?_eq_some_iff.mp here).1]
      rfl
    · rfl

theorem extend?_eq_some {registry later : Registry} {step : RegistryStep}
    (made : registry.extend? step = some later) : later = registry.extend step := by
  cases step with
  | create startName =>
      cases made
      rfl
  | copy index =>
      cases made
      rfl
  | mint index name =>
      cases made
      rfl
  | rule index head body => exact addRule?_eq_some made

theorem build?_eq_some {steps : List RegistryStep} {registry : Registry}
    (built : build? steps = some registry) : registry = build steps := by
  rw [build?] at built
  rw [build]
  generalize empty = earlier at built ⊢
  induction steps generalizing earlier with
  | nil =>
      cases built
      rfl
  | cons step steps ih =>
      rcases Option.bind_eq_some_iff.mp built with ⟨later, made, further⟩
      rw [List.foldl_cons, ← extend?_eq_some made]
      exact ih later further

/-! ## Which symbols coincide -/

/-- Symbols of two mintings differ, unless two grammars of one descent minted them.  A rule that
mentions a symbol minted under another descent, where no step has broken off, makes its grammar
invalid for good, and validation does not break off either. -/
theorem mintings_apart (steps : List RegistryStep) :
    ((empty.mintings steps).Pairwise fun one other => one.symbol = other.symbol →
      one.index ≠ other.index ∧ (origins steps)[one.index]? = (origins steps)[other.index]?) ∧
    ∀ registry, build? steps = some registry →
      ∀ before index head body later, steps = before ++ .rule index head body :: later →
        index < (build before).grammars.size →
        (∃ minting ∈ empty.mintings before, minting.symbol ∈ head :: body ∧
          (origins before)[minting.index]? ≠ (origins before)[index]?) →
        ∃ grammar name, registry.grammars[index]? = some grammar ∧
          grammar.validate? = some (.error (.foreignSymbol name)) := by
  refine ⟨(traced_build steps).apart, ?_⟩
  rintro registry built before index head body later rfl within
    ⟨minting, member, mentioned, abroad⟩
  have traced := traced_build before
  rcases traced.owned minting member with ⟨minter, found, own⟩
  rcases (⟨_, Array.getElem?_eq_getElem within⟩ : ∃ ruled, (build before).grammars[index]? =
    some ruled) with ⟨ruled, here⟩
  have foreign : minting.symbol.owner ≠ ruled.identity := by
    rw [Grammar.owner_of_owns own]
    exact fun same => abroad ((traced.told found here).mp same)
  have changed : ((build before).extend (.rule index head body)).grammars[index]? =
      some (ruled.addRule head body) := by
    rw [extend, addRule, Array.getElem?_modify, if_pos rfl, here]
    rfl
  rcases exists_grammars_foldl_extend changed later with ⟨changes, final⟩
  rcases ((Grammar.RefersAbroad.of_rule mentioned foreign).foldl_extend changes).validate? with
    ⟨name, refused⟩
  refine ⟨_, name, ?_, refused⟩
  rw [build?_eq_some built, build, List.foldl_append, List.foldl_cons]
  exact final

/-- Two grammars, a copy of the first, a symbol minted through each, and a rule of the first
with the symbol of the second. -/
def crossed : List RegistryStep :=
  [.create "S", .create "T", .copy 0, .mint 0 "x", .mint 1 "x", .mint 2 "y",
    .rule 0 ⟨0, 0⟩ [⟨1, 1⟩]]

theorem mintings_apart_crossed :
    build? crossed = some (build crossed) ∧
      ∃ grammar name, (build crossed).grammars[0]? = some grammar ∧
        grammar.validate? = some (.error (.foreignSymbol name)) := by
  have built : build? crossed = some (build crossed) := by decide
  exact ⟨built, (mintings_apart crossed).2 _ built
    [.create "S", .create "T", .copy 0, .mint 0 "x", .mint 1 "x", .mint 2 "y"] 0 ⟨0, 0⟩
    [⟨1, 1⟩] [] rfl (by decide) ⟨⟨1, ⟨1, 1⟩⟩, by decide⟩⟩

/-- What validation says of a grammar in the end, if no step breaks off. -/
def verdict? (steps : List RegistryStep) (index : Nat) :
    Option (Option (Except GrammarError Unit)) :=
  (build? steps).bind fun registry => registry.grammars[index]?.map Grammar.validate?

/-- A copy mints a symbol equal to one that its original mints later.  The copy takes a rule
with the symbol of the original for one with its own, and is valid.  If it has minted none
itself, validation breaks off, and so does a rule for that symbol. -/
theorem copy_mints_equal_symbol :
    empty.mintings [.create "S", .copy 0, .mint 0 "x", .mint 1 "y"] =
        [⟨0, ⟨0, 0⟩⟩, ⟨0, ⟨0, 1⟩⟩, ⟨1, ⟨0, 1⟩⟩] ∧
      verdict? [.create "S", .copy 0, .mint 0 "x", .mint 1 "y", .rule 1 ⟨0, 0⟩ [⟨0, 1⟩]] 1 =
        some (some (.ok ())) ∧
      verdict? [.create "S", .copy 0, .mint 0 "x", .rule 1 ⟨0, 0⟩ [⟨0, 1⟩]] 1 = some none ∧
      build? [.create "S", .copy 0, .mint 0 "x", .rule 1 ⟨0, 1⟩ []] = none := by
  decide

end Registry

end ProgramSearch
