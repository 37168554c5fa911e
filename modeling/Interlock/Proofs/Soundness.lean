import Interlock.Proofs.Executions
import Interlock.Proofs.RaceReports

/-!
# Races are reported

No race between two methods of a class goes unreported: whatever two calls may do at
the same time, on whatever paths through their bodies and the methods they call, if
the accesses conflict there is a finding on their place and their methods.

- `PerformedAccess.RacesWith`: when two accesses race.
- `Program.Exposes`: the methods that are reported for a class.
- `analyze_reports_races`: a race between exposed methods is reported.
-/

namespace Interlock

/-- Two accesses race if they are to the same place, one of them writes, they may run in parallel
and no lock is held at both. -/
structure PerformedAccess.RacesWith (strict : Bool) (a a' : PerformedAccess) : Prop where
  path : a.path = a'.path
  writes : a.kind = .write ∨ a'.kind = .write
  parallel : a.thread.mayRunInParallel strict a'.thread = true
  unprotected : ∀ l ∈ a.locks, l ∉ a'.locks

/-- `program.Exposes className m`: the method can be called on an instance of the class and is
reported under its own name. -/
structure Program.Exposes (program : Program) (className : String) (m : Method) : Prop where
  visible : m ∈ program.hierarchy.visibleMethods className
  root : m.isReportingRoot = true

/-- Events that stand for two accesses with no more locks conflict if the accesses race. -/
theorem PerformedAccess.RacesWith.conflictsWith {strict : Bool} {a a' : PerformedAccess}
    (h : a.RacesWith strict a') {e e' : AccessEvent}
    (hkind : e.kind = a.kind) (hthread : e.thread = a.thread) (hlocks : ∀ l ∈ e.locks, l ∈ a.locks)
    (hkind' : e'.kind = a'.kind) (hthread' : e'.thread = a'.thread)
    (hlocks' : ∀ l ∈ e'.locks, l ∈ a'.locks) : e.conflictsWith strict e' = true := by
  rw [AccessEvent.conflictsWith, hkind, hkind', hthread, hthread', h.parallel, Bool.and_true,
    Bool.and_eq_true, Bool.or_eq_true, SortedSet.isDisjoint_iff]
  refine ⟨h.writes.imp (fun hwrite => ?_) (fun hwrite => ?_), fun l hl hl' => ?_⟩
  · rw [hwrite]
    rfl
  · rw [hwrite]
    rfl
  · exact h.unprotected l (hlocks l hl) (hlocks' l hl')

/-- **Soundness**: every race between two methods that a class exposes is reported, whatever the
budget for lock tracking and in either mode. -/
theorem analyze_reports_races {text : String} {program : Program} {config : Config}
    (hparse : Program.parse? text = some program) (hmax : config.maxFixpointRounds = none)
    (hmin : config.minConfidence = .low) {m m' : Method} {a a' : PerformedAccess}
    (ha : program.Performs m a) (ha' : program.Performs m' a')
    (hraces : a.RacesWith config.strictThreadContext a') {className : String}
    (hm : program.Exposes className m) (hm' : program.Exposes className m') :
    ∃ finding ∈ (analyze program config).findings, finding.path = a.path ∧
      (finding.methodA = m.id ∧ finding.methodB = m'.id ∨
        finding.methodA = m'.id ∧ finding.methodB = m.id) := by
  -- bodies that were read from text are mirrored, so lock tracking can be relied on
  have hmirrored : ∀ m ∈ program.methods, m.body.Mirrored :=
    fun m hm => Program.mirrored_of_parse? hparse hm
  obtain ⟨s, hs, e, he, hpath, hkind, hthread, howner, hlocks⟩ :=
    Session.exists_event hmirrored hmax ha
  obtain ⟨s', hs', e', he', hpath', hkind', hthread', howner', hlocks'⟩ :=
    Session.exists_event hmirrored hmax ha'
  -- the class exposes both events
  have hexposed : e ∈ ((Session.of program config).collection
      (Session.of program config).store).exposed className :=
    Collection.mem_exposed.2 ⟨m, hm.visible, hm.root, s, hs, he⟩
  have hexposed' : e' ∈ ((Session.of program config).collection
      (Session.of program config).store).exposed className :=
    Collection.mem_exposed.2 ⟨m', hm'.visible, hm'.root, s', hs', he'⟩
  have hsame : e.path = e'.path := by rw [hpath, hpath', hraces.path]
  have hconflict := hraces.conflictsWith hkind hthread hlocks hkind' hthread' hlocks'
  have hclass := Hierarchy.mem_classNames_of_visible hm.visible
  -- some finding has the place and the methods; the filter keeps all findings
  obtain ⟨finding, hfinding, hfpath, hmethods⟩ :=
    Collection.exists_finding hclass hexposed hexposed' hsame hconflict
  refine ⟨finding, ?_, hfpath.trans hpath, ?_⟩
  · show finding ∈ Collection.findings _ config.minConfidence
    rw [hmin]
    exact hfinding
  · rw [howner, howner'] at hmethods
    exact hmethods

/-- Puts money into an account, holding its lock. -/
def Method.deposit : Method where
  id := ⟨0⟩
  name := "deposit"
  declaringClass := "Account"
  body := .ofBlocks [([⟨0, .acquire .receiver⟩, ⟨0, .call ⟨1⟩ []⟩], [])]

/-- Adds to an account in a loop. -/
def Method.add : Method where
  id := ⟨1⟩
  name := "add"
  declaringClass := "Account"
  body := .ofBlocks [([⟨0, .write (.thisField "Account" "sum")⟩], [0])]

/-- A shared account, to which `add` is called with and without the lock. -/
def Program.account : Program where
  classes := [{ name := "Account", annotations := { threadSafe := true } }]
  methods := [.deposit, .add]

/-- The account as text, in the short form where records are lists. -/
def Program.accountText : String :=
  "[[[\"Account\",[],[true]]],[[0,\"deposit\",\"Account\",[[[[\x7b\"op\":\"acquire\",\"lock\":" ++
  "[\"this\"]\x7d,\x7b\"op\":\"call\",\"callee\":1\x7d],[]]]]],[1,\"add\",\"Account\",[[[[" ++
  "\x7b\"op\":\"write\",\"target\":[[\"this\"],[[\"field\",\"Account\",\"sum\"]]]\x7d],[0]]]]]]]"

set_option maxRecDepth 100000 in
theorem analyze_reports_races_account :
    ∃ finding ∈ (analyze .account
        { strictThreadContext := true, perMethodBudget := some 1 }).findings,
      finding.path = .field "Account" "sum" ∧
        (finding.methodA = ⟨0⟩ ∧ finding.methodB = ⟨1⟩ ∨
          finding.methodA = ⟨1⟩ ∧ finding.methodB = ⟨0⟩) := by
  have hparse : Program.parse? Program.accountText = some .account := by decide +kernel
  -- once around the loop of `add`, and the same from `deposit`
  have hadd := @Program.Performs.access .account .add [0] ⟨0, 0⟩ _ _ _ _ (by decide +kernel)
    (.step .entry (by decide)) rfl rfl rfl
  have hdeposit := @Program.Performs.call .account .deposit .add [] ⟨0, 1⟩ _ _ _ (by decide +kernel)
    .entry rfl hadd
  have hexposed : Program.Exposes .account "Account" .deposit := ⟨by decide +kernel, rfl⟩
  have hexposed' : Program.Exposes .account "Account" .add := ⟨by decide +kernel, rfl⟩
  refine analyze_reports_races hparse rfl rfl hdeposit hadd ⟨rfl, .inl rfl, ?_, ?_⟩ hexposed
    hexposed'
  · decide +kernel
  · -- no lock is held in `add` when it is called by itself
    intro l _ hl
    rcases hl with ⟨hsynchronized, -⟩ | ⟨guard, hguard, -⟩
    · cases hsynchronized
    · cases hguard

end Interlock
