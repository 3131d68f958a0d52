import SimpleParallel.Lib.SharedLoop
import SimpleParallel.Schedule.CollapseFor
import SimpleParallel.Schedule.FortranBlock
import SimpleParallel.Schedule.ParallelFor

/-!
# The loops of the library

The iterator of `dynamic_schedule` and the three parallel loops over it, as loops that
ranks share; those of the C binding in the runs in which the owners of the counters leave
last. What is asked for here has been proved for each of them.
-/

namespace SimpleParallel.Schedule

/-! ## Iterators -/

section Iterator

variable {cfg : Config} {s t : Session} {a : Act}

/-- The rank that uses an element, and the element. -/
def Act.visit? (size : Nat) : Act → Option (Fin size × Nat)
  | serverUse k => visitAt size rootRank k
  | clientUse r k => visitAt size r k
  | _ => none

theorem visit?_of_not_use (ha : a.isUse = false) : a.visit? cfg.size = none := by
  cases a <;> first
    | rfl
    | cases ha

theorem Step.ran (h : Step cfg s a t) : ((List.range cfg.size).flatMap t.yieldedBy).Perm
    ((List.range cfg.size).flatMap s.yieldedBy ++ ((a.visit? cfg.size).map Prod.snd).toList) := by
  cases ha : a.isUse with
  | false =>
    rw [visit?_of_not_use ha, funext (h.yieldedBy_eq ha)]
    exact List.Perm.of_eq (List.append_nil _).symm
  | true =>
    obtain ⟨r, hr, -, rfl⟩ := h.use_cases ha
    have hvisit : (Act.use r (s.current r)).visit? cfg.size = visitAt cfg.size r (s.current r) := by
      unfold Act.use
      split
      · next hroot => rw [hroot]; rfl
      · rfl
    rw [hvisit, visitAt_map hr, h.yieldedBy_use]
    exact Assignment.flatMap_update_perm List.nodup_range (List.mem_range.mpr hr) _

end Iterator

/-- `for (auto i : dynamic_schedule(...))` -/
def Config.shared (cfg : Config) : SharedLoop cfg.size Nat where
  State := Session
  Label := Act
  sys := sys cfg
  start := Session.initial cfg
  visit? := Act.visit? cfg.size
  ran s := (List.range cfg.size).flatMap s.yieldedBy
  Done := AllDone cfg
  elements := List.range cfg.n
  Good s a := ¬ a.TakesProbed s
  start_init := rfl
  ran_start := yieldedBy_initial cfg
  ran_step := Step.ran
  ran_done h hd := (yielded_perm h hd).1
  exists_done h := by
    obtain ⟨t, ht, hover⟩ := exists_over h
    exact ⟨t, ht.startingAt_of_along, allDone_of_over (h.of_along ht).of_restrict hover⟩

/-! ## Crews -/

section Crews

variable {τ ι β : Type} {p : CrewConfig τ ι β} {mayEnd : Crew τ ι β → Session → Prop}
  {s t : Crew τ ι β} {l : CrewLabel β}

def CrewLabel.visit? (size : Nat) : CrewLabel β → Option (Fin size × β)
  | run r _ x => visitAt size r x
  | _ => none

theorem Crew.ran_initial (p : CrewConfig τ ι β) : (Crew.initial p).ran p = [] :=
  List.flatMap_eq_nil_iff.mpr fun _ _ => rfl

/-- One thread runs the body for `more`. -/
theorem Crew.ran_setThread (s : Crew τ ι β) {m : Nat × Nat} {th : CrewThread τ ι β} {more : List β}
    (hm : m ∈ p.members) (hth : th.ran = (s.thread m).ran ++ more) :
    ((s.setThread m th).ran p).Perm (s.ran p ++ more) := by
  have hran : (fun m' => ((s.setThread m th).thread m').ran) =
      Function.update (fun m' => (s.thread m').ran) m ((s.thread m).ran ++ more) := by
    funext m'
    rw [← hth]
    exact Function.apply_update (fun _ th => CrewThread.ran th) s.thread m th m'
  unfold Crew.ran
  rw [hran]
  exact Assignment.flatMap_update_perm p.members_nodup hm more

theorem Crew.Step.ran (h : Crew.Step p mayEnd s l t) :
    (t.ran p).Perm (s.ran p ++ ((l.visit? p.config.size).map Prod.snd).toList) := by
  cases h with
  | session _ _ _ => exact List.Perm.of_eq (List.append_nil _).symm
  | @take r i u hm _ _ _ _ =>
    exact Crew.ran_setThread (p := p) { s with session := u } hm (List.append_nil _).symm
  | @run r i _ _ _ x hm _ _ =>
    rw [CrewLabel.visit?, visitAt_map (p.mem_members.mp hm).1]
    exact s.ran_setThread hm rfl
  | release hm _ _ | endTask hm _ _ | leave hm _ _ _ =>
    exact s.ran_setThread hm (List.append_nil _).symm

def CountedLabel.visit? (size : Nat) : CountedLabel β → Option (Fin size × β)
  | crew l => l.visit? size
  | _ => none

theorem Counted.Step.ran {s t : Counted τ ι β} {l : CountedLabel β} (h : Counted.Step p s l t) :
    (t.crew.ran p).Perm (s.crew.ran p ++ ((l.visit? p.config.size).map Prod.snd).toList) := by
  cases h with
  | crew hs => exact hs.ran
  | stray hm _ _ _ | strayLeave hm _ _ _ =>
    exact Crew.ran_setThread s.crew hm (List.append_nil _).symm
  | countDown _ _ _ _ | leave _ _ => exact List.Perm.of_eq (List.append_nil _).symm

/-- A counted crew in the runs in which the owners leave last: `owner` of each rank. -/
def CrewConfig.shared (p : CrewConfig τ ι β) {visits : Nat → List β} (hvisits : p.Visits visits)
    (owner : Nat → Nat) (howner : ∀ r < p.config.size, owner r < p.threads r) :
    SharedLoop p.config.size β where
  State := Counted τ ι β
  Label := CountedLabel β
  sys := ownersLastSys p
  start := Counted.initial p owner
  visit? := CountedLabel.visit? p.config.size
  ran s := s.crew.ran p
  Done s := s.crew.AllLeft p
  elements := (List.range p.config.n).flatMap visits
  Good s l := ∀ a, l = .crew (.session a) → ¬ a.TakesProbed s.crew.session
  start_init := ⟨owner, howner, rfl⟩
  ran_start := Crew.ran_initial p
  ran_step h := h.2.ran
  ran_done h hleft :=
    Crew.ran_perm hvisits (Counted.crew_reachable (lastDangles_of_ownersLast h)) hleft
  exists_done h := by
    obtain ⟨t, ht, hfinished⟩ := Counted.exists_finished hvisits h
    exact ⟨t, ht, hfinished.left (ownersInv (h.trans ht).of_restrict).toCountedInv⟩

end Crews

/-- `S_P_GSS_UINT64_T_PAR_FOR_COLLAPSE_2` -/
def CollapseFor.shared (p : CollapseFor) (owner : Nat → Nat)
    (howner : ∀ r < p.size, owner r < p.threads r) : SharedLoop p.size IjPoint :=
  { p.crew.shared p.crew_visits owner howner with
    elements := (List.range p.allIndexCount.toNat).map p.points
    ran_done := fun h hd =>
      p.visits_cover ▸ (p.crew.shared p.crew_visits owner howner).ran_done h hd }

/-- `S_P_GSS_UINT64_T_PAR_FOR`; the constructor of the generator must come back. -/
def ParFor.shared (p : ParFor) (hnew : TaskIterator.new p.gssState ≠ none)
    (owner : Nat → Nat) (howner : ∀ r < p.size, owner r < p.threads r) : SharedLoop p.size Nat :=
  { p.crew.shared p.crew_visits owner howner with
    elements := p.indices
    ran_done := fun h hd => indices_cover (TaskIterator.ok_of_new p.range hnew) ▸
      (p.crew.shared p.crew_visits owner howner).ran_done h hd }

def FortranLabel.visit? (size : Nat) : FortranLabel → Option (Fin size × Int)
  | crew l => l.visit? size
  | _ => none

/-- `gss_dynamic_schedule_begin.h` and `gss_dynamic_schedule_end.h` -/
def FortranDo.shared (p : FortranDo) : SharedLoop p.size Int where
  State := FortranTeam
  Label := FortranLabel
  sys := fortranSys p
  start := FortranTeam.initial p
  visit? := FortranLabel.visit? p.size
  ran s := s.crew.ran p.crew
  Done s := s.crew.AllLeft p.crew
  elements := doLoop p.first p.last
  Good s l := ∀ a, l = .crew (.session a) → ¬ a.TakesProbed s.crew.session
  start_init := rfl
  ran_start := Crew.ran_initial p.crew
  ran_step h := by
    cases h with
    | crew hs => exact hs.ran
    | _ => exact List.Perm.of_eq (List.append_nil _).symm
  ran_done h hleft := by
    rw [← p.visits_cover]
    exact Crew.ran_perm p.crew_visits (fortranInv h).crew hleft
  exists_done h := by
    obtain ⟨t, ht, hfinished⟩ := FortranTeam.exists_finished h
    exact ⟨t, ht, hfinished.left (fortranInv (h.trans ht).of_restrict)⟩

end SimpleParallel.Schedule
