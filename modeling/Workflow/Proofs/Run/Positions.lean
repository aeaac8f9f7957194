import Mathlib.Logic.ExistsUnique
import Workflow.Proofs.Machine.Lookup
import Workflow.Proofs.Machine.Sound
import Workflow.Proofs.Run.Accounts

/-!
# Positions

A position in a machine is a chain of branches and a state of the machine at its end. A trace tells
the positions that were entered by their texts, the name of the state behind the scope of the chain.

When no name in the machine has a slash, the text tells the position. Its last slash ends the scope,
and from the scope the chain is read back step by step (`Scope.ofChain_inj`); a text without a slash
is a state of the whole machine. Brackets and digits in names do no harm. What a run of a machine
that passes validation enters are positions in it, so each entry of the trace stands for one of them
(`positions_told_apart`).
-/

namespace Workflow

/-- The position of a state inside a machine. -/
structure Position where
  /-- The names of the parallel states on the way, each with the index of a branch. -/
  chain : List (String × Nat)
  state : String
deriving DecidableEq

namespace Position

/-- The position as a trace tells it. -/
def text (p : Position) : String := (Scope.ofChain p.chain).position p.state

/-- The chain leads to a machine inside `m`, and that machine has the state. -/
def IsIn (p : Position) (m : Machine) : Prop :=
  ∃ inner s, m.branchAt? p.chain = some inner ∧ inner.state? p.state = some s

end Position

/-! ## Names without slashes -/

theorem Machine.Unslashed.inner {m inner : Machine} (h : m.Unslashed) {chain : List (String × Nat)}
    (hchain : m.branchAt? chain = some inner) : inner.Unslashed := by
  induction chain generalizing m with
  | nil => exact Option.some.inj hchain ▸ h
  | cons link chain ih =>
    obtain ⟨name, index⟩ := link
    obtain ⟨-, inside⟩ := h
    rw [branchAt?] at hchain
    split at hchain
    · next branches settings hs =>
      obtain ⟨branch, hbranch, hrest⟩ := Option.bind_eq_some_iff.mp hchain
      exact ih (inside _ _ _ hs _ (List.mem_of_getElem? hbranch)) hrest
    · cases hchain

theorem Machine.Unslashed.state {m inner : Machine} (h : m.Unslashed) {chain : List (String × Nat)}
    (hchain : m.branchAt? chain = some inner) {name : String} {s : State}
    (hs : inner.state? name = some s) : '/' ∉ name.toList := by
  obtain ⟨names, -⟩ := h.inner hchain
  exact names name s hs

/-- **Texts of positions.** Where no name has a slash, a text tells the position it belongs to. -/
theorem Machine.Unslashed.text_inj {m : Machine} (h : m.Unslashed) {p q : Position} (hp : p.IsIn m)
    (hq : q.IsIn m) : p.text = q.text ↔ p = q := by
  obtain ⟨chain, state⟩ := p
  obtain ⟨chain', state'⟩ := q
  obtain ⟨inner, s, hchain, hs⟩ := hp
  obtain ⟨inner', s', hchain', hs'⟩ := hq
  have hstate := h.state hchain hs
  have hstate' := h.state hchain' hs'
  rw [Position.text, Position.text, ← String.toList_inj, Scope.toList_position,
    Scope.toList_position, Scope.inside_inj hstate hstate',
    Scope.ofChain_inj (h.chain hchain) (h.chain hchain'), String.toList_inj, Position.mk.injEq]

/-! ## The positions of a run -/

namespace Engine

variable {σ : Type}

/-- The scope and the branch index of a site tell the same chain. -/
theorem Leads.exists_chain {m : Machine} {site : Site} (h : Leads { machine := m } site) :
    ∃ chain, m.branchAt? chain = some site.machine ∧ site.scope = Scope.ofChain chain ∧
      site.branch = chain.map Prod.snd := by
  induction h with
  | refl => exact ⟨[], rfl, rfl, rfl⟩
  | @branch inner name branches settings i branch _ state mem ih =>
    obtain ⟨chain, hmachine, hscope, hbranch⟩ := ih
    refine ⟨chain ++ [(name, i)], Machine.branchAt?_append hmachine state mem, ?_, ?_⟩
    · rw [branchSite, Scope.ofChain_append, hscope]
    · rw [branchSite, hbranch, List.map_append, List.map_singleton]

/-- What is entered in the run of a document that passes validation has a position in it. -/
theorem exists_position_of_mem_trace {e : Engine σ} (h : e.document.machine.check = .ok ())
    {input : Json} {world : σ} {entry : String} (hentry : entry ∈ (e.execute input world).1.trace) :
    ∃ p : Position, p.IsIn e.document.machine ∧ p.text = entry := by
  rw [trace_eq_map_entered] at hentry
  obtain ⟨x, hx, rfl⟩ := List.mem_map.mp hentry
  have hoccurs := (e.run_accounts input world).occurs x hx
  obtain ⟨chain, hchain, hscope, -⟩ := hoccurs.leads.exists_chain
  have hchecked := hoccurs.leads.checked (Machine.checked_of_check h)
  obtain ⟨s, hs⟩ := hoccurs.reaches.exists_state hchecked
  exact ⟨⟨chain, x.visit.state⟩, ⟨_, s, hchain, hs⟩, by rw [Position.text, ← hscope]; rfl⟩

/-- **Positions are told apart by their texts.** In a machine where no state, at any depth, has a
slash in its name, different positions have different texts. So if the machine passes validation,
every entry in the trace of a run is the text of exactly one position in it. -/
theorem positions_told_apart {m : Machine} (h : m.Unslashed) :
    (∀ p q : Position, p.IsIn m → q.IsIn m → p ≠ q → p.text ≠ q.text) ∧
    ∀ e : Engine σ, e.document.machine = m → m.check = .ok () → ∀ input world,
      ∀ entry ∈ (e.execute input world).1.trace, ∃! p : Position, p.IsIn m ∧ p.text = entry := by
  refine ⟨fun p q hp hq ↦ mt (h.text_inj hp hq).mp, ?_⟩
  rintro e rfl hcheck input world entry hentry
  obtain ⟨p, hp, rfl⟩ := exists_position_of_mem_trace hcheck hentry
  exact ⟨p, ⟨hp, rfl⟩, fun q ⟨hq, htext⟩ ↦ (h.text_inj hq hp).mp htext⟩

/-- A state with the name that the scope of a branch of another one has. -/
def bracketed : Engine Unit where
  document := .ofMachine {
    startAt := "A"
    states := [
      ("A", .parallel [{ startAt := "0]", states := [("0]", .succeed none)] }]
        { transition := { next := some "A[0]" } }),
      ("A[0]", .succeed none)] }
  perform := fun _ s ↦ ({ result := .ok .null }, s)

theorem unslashed_bracketed : bracketed.document.machine.Unslashed := by
  refine .of_states (by decide) ?_
  intro e he branches settings hparallel b hb
  rcases List.mem_cons.mp he with rfl | he
  · obtain ⟨rfl, -⟩ := State.parallel.inj hparallel
    obtain rfl := List.mem_singleton.mp hb
    refine .of_states (by decide) ?_
    intro e he branches settings hparallel
    obtain rfl := List.mem_singleton.mp he
    cases hparallel
  · obtain rfl := List.mem_singleton.mp he
    cases hparallel

theorem positions_told_apart_bracketed :
    bracketed.document.machine.Unslashed ∧
      (⟨[("A", 0)], "0]"⟩ : Position).text ≠ (⟨[], "A[0]"⟩ : Position).text ∧
      (bracketed.execute .null ()).1.trace = ["A", "A[0]/0]", "A[0]"] ∧
      ∃! p : Position, p.IsIn bracketed.document.machine ∧ p.text = "A[0]/0]" := by
  have hcheck : bracketed.document.machine.check = .ok () := by rfl
  have htrace : (bracketed.execute .null ()).1.trace = ["A", "A[0]/0]", "A[0]"] := by decide
  have hentry : "A[0]/0]" ∈ (bracketed.execute .null ()).1.trace := by
    rw [htrace]
    decide
  obtain ⟨htexts, hentries⟩ := positions_told_apart (σ := Unit) unslashed_bracketed
  exact ⟨unslashed_bracketed, htexts _ _ ⟨_, _, rfl, rfl⟩ ⟨_, _, rfl, rfl⟩ (by decide), htrace,
    hentries bracketed rfl hcheck .null () _ hentry⟩

end Engine

end Workflow
