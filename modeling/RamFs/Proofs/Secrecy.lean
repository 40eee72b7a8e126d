import RamFs.Proofs.Shape
import RamFs.Volume.Operation

/-!
# RamFs.Proofs.Secrecy

What a file holds does not leak while it may be neither read nor executed.  Two
volumes that differ in the octets of one such file only (`SameBut`) give the
same answer to every operation, and stay that way (`SameBut.run`).  Operations
look at nodes in three ways: walks and checks read nothing but what `Alike`
nodes share, which for a walk is the shape of the volume (`SameBut.shape`); a
report counts octets; and `cat` and `executable?` stop at a check before they
come to the octets of a sealed file.

Nothing here assumes that the links of a volume fit together.
-/

namespace RamFs

/-! ## Nodes with the same outside -/

namespace Node

/-- A node that may be neither read nor executed. -/
def isSealed (n : Node) : Bool := !n.permissions.canRead && !n.permissions.canExecute

/-- Two files that differ in their octets only, of which they have equally many. -/
inductive Twin : Node → Node → Prop
  | intro (n : Node) (c c' : Bytes) (length_eq : c'.length = c.length) :
      Twin { n with body := .file c } { n with body := .file c' }

/-- What walks, checks and reports read of a node. -/
structure Alike (m n : Node) : Prop where
  name : n.name = m.name
  kind : n.kind = m.kind
  parent : n.parent = m.parent
  permissions : n.permissions = m.permissions
  flags : n.flags = m.flags
  children : n.children = m.children
  size : n.size = m.size

variable {m n : Node}

theorem Alike.refl (n : Node) : Alike n n := ⟨rfl, rfl, rfl, rfl, rfl, rfl, rfl⟩

/-- Twins look alike from outside. -/
theorem Twin.alike (t : Twin m n) : Alike m n := by
  obtain ⟨n, c, c', hlength⟩ := t
  exact ⟨rfl, rfl, rfl, rfl, rfl, rfl, congrArg (· + 0) hlength⟩

/-- Only files have twins. -/
theorem Twin.isFile (t : Twin m n) : m.isFile = true := by
  obtain ⟨n, c, c', hlength⟩ := t
  rfl

/-- Alike nodes are both files or both directories. -/
theorem Alike.isFile (a : Alike m n) : n.isFile = m.isFile := by
  rw [Node.isFile, Node.isFile, a.kind]

theorem Alike.requireRead (a : Alike m n) : n.requireRead = m.requireRead := by
  rw [Node.requireRead, Node.requireRead, a.permissions]

theorem Alike.requireWrite (a : Alike m n) : n.requireWrite = m.requireWrite := by
  rw [Node.requireWrite, Node.requireWrite, a.permissions]

theorem Alike.requireExecute (a : Alike m n) : n.requireExecute = m.requireExecute := by
  rw [Node.requireExecute, Node.requireExecute, a.permissions]

theorem Alike.requireUnprotected (a : Alike m n) : n.requireUnprotected = m.requireUnprotected := by
  rw [Node.requireUnprotected, Node.requireUnprotected, a.flags]

theorem Alike.requireKind (a : Alike m n) (k : Kind) : n.requireKind k = m.requireKind k := by
  rw [Node.requireKind, Node.requireKind, a.kind]

/-- Alike nodes are listed alike. -/
theorem Alike.entry (a : Alike m n) : Entry.ofNode n = Entry.ofNode m := by
  rw [Entry.ofNode, Entry.ofNode, a.name, a.kind, a.permissions, a.flags]

/-- Alike nodes are described alike. -/
theorem Alike.stat (a : Alike m n) (name : Text) : Stat.ofNode name n = Stat.ofNode name m := by
  rw [Stat.ofNode, Stat.ofNode, a.kind, a.permissions, a.flags, a.size]

end Node

/-! ## Results that agree -/

/-- Two results with the same error, or with values that are related. -/
inductive Agree {ε α β : Type} (R : α → β → Prop) : Except ε α → Except ε β → Prop
  | error (x : ε) : Agree R (.error x) (.error x)
  | ok {a : α} {b : β} (h : R a b) : Agree R (.ok a) (.ok b)

/-- Two computations that begin alike agree if what follows does. -/
theorem agree_bind {ε α β γ : Type} {R : β → γ → Prop} {x : Except ε α} {k : α → Except ε β}
    {l : α → Except ε γ} (h : ∀ a, x = .ok a → Agree R (k a) (l a)) :
    Agree R (x >>= k) (x >>= l) := by
  cases x with
  | error e => exact .error e
  | ok a => exact h a rfl

namespace Volume

/-- `w` is `v` but for the octets of the file `f`, of which there are equally
many. -/
structure SameBut (f : Handle) (v w : Volume) : Prop where
  limits : w.limits = v.limits
  cwd : w.cwd = v.cwd
  capacity : w.pool.capacity = v.pool.capacity
  used : w.used = v.used
  lt_used : f < v.used
  twin : (v.node f).Twin (w.node f)
  other : ∀ h, h ≠ f → w.node h = v.node h

variable {v w : Volume} {f h dir : Handle}

namespace SameBut

/-! ## Walks -/

section Walks

variable (s : SameBut f v w)

include s

/-- Every node looks as it does in the other volume. -/
theorem alike (h : Handle) : (v.node h).Alike (w.node h) := by
  by_cases hf : h = f
  · rw [hf]
    exact s.twin.alike
  · rw [s.other h hf]
    exact .refl _

/-- Octets alone do not show in the shape of a volume. -/
theorem shape : SameShape v w where
  limits := s.limits
  cwd := s.cwd
  name h := (s.alike h).name
  isFile h := (s.alike h).isFile
  parent h := (s.alike h).parent
  children h := (s.alike h).children

/-! ## Reads -/

/-- Listings show nothing of the octets. -/
theorem ls (path : Text) (all : Bool) : w.ls path all = v.ls path all := by
  have hentries : ∀ hs : List Handle,
      ((hs.map w.node).filter fun n => all || !n.flags.isHidden).map Entry.ofNode =
        ((hs.map v.node).filter fun n => all || !n.flags.isHidden).map Entry.ofNode := by
    intro hs
    induction hs with
    | nil => rfl
    | cons h hs ih =>
        simp only [List.map_cons, List.filter_cons, (s.alike h).flags]
        split
        · rw [List.map_cons, List.map_cons, ih, (s.alike h).entry]
        · exact ih
  simp only [Volume.ls, s.shape.lookup, s.shape.children, (s.alike _).requireRead, hentries]

/-- Descriptions show their number only, which is the same. -/
theorem stat (path : Text) : w.stat path = v.stat path := by
  simp only [Volume.stat, s.shape.locate, (s.alike _).name, (s.alike _).stat]

/-- The read bit keeps `cat` from the octets of a sealed file. -/
theorem cat (hf : (v.node f).isSealed = true) (path : Text) : w.cat path = v.cat path := by
  rw [Volume.cat, Volume.cat, s.shape.locate]
  congr 1
  funext h
  by_cases hh : h = f
  · obtain ⟨hread, -⟩ := Bool.and_eq_true_iff.mp hf
    have hstop : (v.node h).requireRead = .error (.permissionDenied .read) := by
      rw [hh, Node.requireRead, if_neg (by simpa using hread)]
    rw [(s.alike h).requireKind, (s.alike h).requireRead, hstop]
    rfl
  · rw [s.other h hh]

/-- The execute bit keeps `executable?` from the octets of a sealed file. -/
theorem executable? (hf : (v.node f).isSealed = true) (path : Text) :
    w.executable? path = v.executable? path := by
  rw [Volume.executable?, Volume.executable?, s.shape.locate]
  split
  case h_1 => rfl
  case h_2 h _ =>
    by_cases hh : h = f
    · obtain ⟨-, hexecute⟩ := Bool.and_eq_true_iff.mp hf
      have hstop : (v.node h).permissions.canExecute = false := by simpa [hh] using hexecute
      rw [(s.alike h).permissions, hstop, Bool.and_false, Bool.and_false]
      rfl
    · rw [s.other h hh]

end Walks

/-! ## Changes -/

/-- The same change of a node on both sides, as long as it turns twins into
twins. -/
theorem modify (s : SameBut f v w) (h : Handle) {k : Node → Node}
    (hk : ∀ {m n}, Node.Twin m n → Node.Twin (k m) (k n)) :
    SameBut f (v.modify h k) (w.modify h k) where
  limits := s.limits
  cwd := s.cwd
  capacity := s.capacity
  used := by rw [used_modify, used_modify, s.used]
  lt_used := by rw [used_modify]; exact s.lt_used
  twin := by
    rw [node_modify, node_modify, s.used]
    split
    · exact hk s.twin
    · exact s.twin
  other := fun i hi => by rw [node_modify, node_modify, s.used, s.other i hi]

theorem enter (s : SameBut f v w) (dir : Handle) :
    SameBut f { v with cwd := dir } { w with cwd := dir } :=
  ⟨s.limits, rfl, s.capacity, s.used, s.lt_used, s.twin, s.other⟩

/-- A change of child lists leaves twins as they are, as files have none. -/
theorem twin_mapChildren {m n : Node} (t : Node.Twin m n) (g : List Handle → List Handle) :
    Node.Twin { m with body := m.body.mapChildren g } { n with body := n.body.mapChildren g } := by
  obtain ⟨n, c, c', hlength⟩ := t
  exact .intro n c c' hlength

/-- The same node taken out. -/
theorem detach (s : SameBut f v w) (h : Handle) : SameBut f (v.detach h) (w.detach h) := by
  rw [Volume.detach, Volume.detach, s.shape.parent]
  split
  case h_1 => exact s
  case h_2 dir _ =>
    refine (s.modify h ?_).modify dir fun t => twin_mapChildren t _
    rintro m n ⟨n, c, c', hlength⟩
    exact .intro { n with parent := none } c c' hlength

/-- Whether there is a slot left is the same on both sides, and so is its number. -/
theorem add (s : SameBut f v w) (n : Node) :
    Agree (fun r r' : Handle × Pool => r'.1 = r.1 ∧
        SameBut f { v with pool := r.2 } { w with pool := r'.2 })
      (v.pool.add n) (w.pool.add n) := by
  have hused : w.pool.used = v.pool.used := s.used
  -- both pools have as many slots in use, so they run out together
  cases hv : v.pool.add n with
  | error x =>
      obtain ⟨rfl, hfull⟩ := Pool.add_eq_error hv
      cases hw : w.pool.add n with
      | error y =>
          obtain ⟨rfl, -⟩ := Pool.add_eq_error hw
          exact .error _
      | ok r =>
          obtain ⟨hlt, -⟩ := Pool.add_eq_ok hw
          rw [hused, s.capacity, hfull] at hlt
          exact absurd hlt (Nat.lt_irrefl _)
  | ok r =>
      obtain ⟨hlt, hr, hrcap, hrused, -⟩ := Pool.add_eq_ok hv
      cases hw : w.pool.add n with
      | error y =>
          obtain ⟨-, hfull⟩ := Pool.add_eq_error hw
          rw [hused, s.capacity] at hfull
          exact absurd hfull (Nat.ne_of_lt hlt)
      | ok r' =>
          obtain ⟨-, hr', hrcap', hrused', -⟩ := Pool.add_eq_ok hw
          have hnew : f ≠ v.used := Nat.ne_of_lt s.lt_used
          refine .ok ⟨by rw [hr, hr', hused], ⟨s.limits, s.cwd, ?_, ?_, ?_, ?_, ?_⟩⟩
          · change r'.2.capacity = r.2.capacity
            rw [hrcap, hrcap', s.capacity]
          · change r'.2.used = r.2.used
            rw [hrused, hrused', hused]
          · change f < r.2.used
            rw [hrused]
            exact Nat.lt_succ_of_lt s.lt_used
          · rw [node_of_add hv, node_of_add hw, s.used, if_neg hnew, if_neg hnew]
            exact s.twin
          · intro i hi
            rw [node_of_add hv, node_of_add hw, s.used, s.other i hi]

/-- The results of a change that agree: the same answer, and volumes that differ
in the octets of `f` only. -/
abbrev Settled {α : Type} (f : Handle) (r r' : α × Volume) : Prop :=
  r'.1 = r.1 ∧ SameBut f r.2 r'.2

/-- A new child takes the same slot, or is refused alike. -/
theorem createChild (s : SameBut f v w) (dir : Handle) (name : Text) (kind : Kind)
    (permissions : Permissions) :
    Agree (Settled f) (v.createChild dir name kind permissions)
      (w.createChild dir name kind permissions) := by
  rw [Volume.createChild, Volume.createChild, s.shape.cutName, s.limits]
  by_cases hdir : dir = f
  · have hv := body_of_isFile s.twin.isFile
    have hw := body_of_isFile (s.twin.alike.isFile.trans s.twin.isFile)
    rw [hdir, hv, hw]
    exact .error _
  · rw [s.other dir hdir]
    split
    case h_1 => exact .error _
    case h_2 hs _ =>
      split
      case isTrue => exact .error _
      case isFalse =>
        have hadd := s.add (newNode dir (v.cutName name) kind permissions)
        generalize v.pool.add _ = r at hadd
        generalize w.pool.add _ = r' at hadd
        cases hadd with
        | error x => exact .error x
        | @ok a b hadd =>
            obtain ⟨h, p⟩ := a
            obtain ⟨h', q⟩ := b
            obtain ⟨rfl, hp⟩ := hadd
            rw [s.limits] at hp
            exact .ok ⟨rfl, hp.modify dir fun t => twin_mapChildren t _⟩

/-- A new entry at a path. -/
theorem create (s : SameBut f v w) (path : Text) (kind : Kind) (permissions : Permissions) :
    Agree (Settled f) (v.create path kind permissions) (w.create path kind permissions) := by
  rw [Volume.create, Volume.create]
  split
  case isTrue => exact .error _
  case isFalse =>
    rw [s.shape.lookup]
    refine agree_bind fun dir _ => ?_
    rw [(s.alike dir).requireWrite]
    refine agree_bind fun _ _ => ?_
    rw [s.shape.cutName, s.shape.child?]
    split
    case isTrue => exact .error _
    case isFalse => exact s.createChild dir _ kind permissions

/-- A directory added on the way down a path. -/
theorem addOnTheWay (s : SameBut f v w) (dir : Handle) (name : Text) :
    Agree (Settled f) (v.addOnTheWay dir name) (w.addOnTheWay dir name) := by
  rw [Volume.addOnTheWay, Volume.addOnTheWay, (s.alike dir).requireWrite]
  refine agree_bind fun _ _ => ?_
  have hc := s.createChild dir name .directory .all
  generalize v.createChild dir name .directory .all = r at hc
  generalize w.createChild dir name .directory .all = r' at hc
  cases hc with
  | error x => exact .error _
  | ok hc => exact .ok hc

/-- A walk that creates what is missing. -/
theorem descendMaking (s : SameBut f v w) (dir : Handle) (cs : List Text) :
    Settled f (v.descendMaking dir cs) (w.descendMaking dir cs) := by
  induction cs generalizing v w dir with
  | nil => exact ⟨rfl, s⟩
  | cons c cs ih =>
      rw [Volume.descendMaking, Volume.descendMaking, s.shape.step]
      split
      case h_1 => exact ⟨rfl, s⟩
      case h_2 next _ => exact ih s next
      case h_3 =>
        have ha := s.addOnTheWay dir c
        generalize v.addOnTheWay dir c = r at ha
        generalize w.addOnTheWay dir c = r' at ha
        cases ha with
        | error x => exact ⟨rfl, s⟩
        | @ok a b ha =>
            obtain ⟨next, u⟩ := a
            obtain ⟨next', u'⟩ := b
            obtain ⟨rfl, hs⟩ := ha
            exact ih hs _

/-- Making a path. -/
theorem makePath (s : SameBut f v w) (path : Text) :
    Settled f (v.makePath path) (w.makePath path) := by
  rw [Volume.makePath, Volume.makePath, s.shape.startOf]
  exact s.descendMaking _ _

/-- The checks before a removal. -/
theorem removable (s : SameBut f v w) (h : Handle) (kind : Kind) :
    w.removable h kind = v.removable h kind := by
  simp only [Volume.removable, s.shape.parent, (s.alike _).requireKind,
    (s.alike _).requireUnprotected,
    (s.alike _).requireWrite]

/-- Removing a file. -/
theorem rm (s : SameBut f v w) (path : Text) : Agree (SameBut f) (v.rm path) (w.rm path) := by
  rw [Volume.rm, Volume.rm, s.shape.locate]
  refine agree_bind fun h _ => ?_
  rw [s.removable]
  exact agree_bind fun _ _ => .ok (s.detach h)

/-- Removing a directory. -/
theorem rmdir (s : SameBut f v w) (path : Text) :
    Agree (SameBut f) (v.rmdir path) (w.rmdir path) := by
  rw [Volume.rmdir, Volume.rmdir, s.shape.locate]
  refine agree_bind fun h _ => ?_
  rw [s.removable]
  refine agree_bind fun dir _ => ?_
  rw [s.shape.children, s.cwd]
  split
  case isTrue => exact .ok ((s.detach h).enter _)
  case isFalse => exact .error _

/-- Moving the cursor. -/
theorem cd (s : SameBut f v w) (path : Text) : Agree (SameBut f) (v.cd path) (w.cd path) := by
  rw [Volume.cd, Volume.cd, s.shape.lookup]
  refine agree_bind fun dir _ => ?_
  rw [(s.alike dir).requireExecute]
  exact agree_bind fun _ _ => .ok (s.enter dir)

/-- Writing makes the two files equal, if it is the sealed file that is written. -/
theorem write (s : SameBut f v w) (path text : Text) :
    Agree (Settled f) (v.write path text) (w.write path text) := by
  rw [Volume.write, Volume.write, s.shape.locate]
  refine agree_bind fun h _ => ?_
  rw [(s.alike h).requireKind, (s.alike h).requireWrite, s.limits]
  refine agree_bind fun _ _ => agree_bind fun _ _ => .ok ⟨rfl, s.modify h ?_⟩
  rintro m n ⟨n, c, c', hlength⟩
  exact .intro n _ _ rfl

/-- Changing permissions. -/
theorem chmod (s : SameBut f v w) (path : Text) (mode : UInt32) :
    Agree (SameBut f) (v.chmod path mode) (w.chmod path mode) := by
  rw [Volume.chmod, Volume.chmod, s.shape.locate]
  refine agree_bind fun h _ => ?_
  rw [(s.alike h).requireUnprotected]
  refine agree_bind fun _ _ => ?_
  split
  case h_1 => exact .error _
  case h_2 permissions _ =>
    refine .ok (s.modify h ?_)
    rintro m n ⟨n, c, c', hlength⟩
    exact .intro { n with permissions } c c' hlength

/-! ## Operations -/

/-- Outcomes of changes with an answer. -/
theorem ofChange {α : Type} (s : SameBut f v w) (answer : α → Answer)
    {r r' : Except FsError (α × Volume)} (h : Agree (Settled f) r r') :
    Settled f (Outcome.ofChange v answer r) (Outcome.ofChange w answer r') := by
  cases h with
  | error x => exact ⟨rfl, s⟩
  | ok h => exact ⟨by simp only [Outcome.ofChange, h.1], h.2⟩

/-- Outcomes of changes without an answer. -/
theorem ofEdit (s : SameBut f v w) {r r' : Except FsError Volume} (h : Agree (SameBut f) r r') :
    Settled f (Outcome.ofEdit v r) (Outcome.ofEdit w r') := by
  cases h with
  | error x => exact ⟨rfl, s⟩
  | ok h => exact ⟨rfl, h⟩

theorem ofQuery {α : Type} (s : SameBut f v w) (answer : α → Answer) {r r' : Except FsError α}
    (h : r' = r) : Settled f (Outcome.ofQuery v answer r) (Outcome.ofQuery w answer r') :=
  ⟨by rw [h]; rfl, s⟩

/-- Outcomes of making a path. -/
theorem made (s : SameBut f v w) (path : Text) (answer : Handle → Answer) :
    Settled f ((v.makePath path).1.map answer, (v.makePath path).2)
      ((w.makePath path).1.map answer, (w.makePath path).2) := by
  obtain ⟨hanswer, hs⟩ := s.makePath path
  exact ⟨congrArg (Except.map answer) hanswer, hs⟩

/-- **Step lemma**: with the file sealed, an operation gives the same answer on
both volumes and leaves them different in the octets of that file only. -/
theorem run (s : SameBut f v w) (hf : (v.node f).isSealed = true) (op : Op) :
    Settled f (op.run v) (op.run w) := by
  cases op with
  | mkdir path => exact s.ofChange _ (s.create path _ _)
  | touch path | touchReadOnly path => exact s.ofChange _ (s.create path _ _)
  | touchWith path permissions => exact s.ofChange _ (s.create path _ permissions)
  | makePath path => exact s.made path _
  | rm path => exact s.ofEdit (s.rm path)
  | rmdir path => exact s.ofEdit (s.rmdir path)
  | ls path all => exact s.ofQuery _ (s.ls path all)
  | cd path => exact s.ofEdit (s.cd path)
  | pwd => exact s.ofQuery _ (by rw [Volume.pwd, Volume.pwd, s.cwd, s.shape.pathOf])
  | write path text => exact s.ofChange _ (s.write path text)
  | cat path => exact s.ofQuery _ (s.cat hf path)
  | chmod path mode => exact s.ofEdit (s.chmod path mode)
  | stat path => exact s.ofQuery _ (s.stat path)
  | executable path => exact s.ofQuery _ (by rw [s.executable? hf])
  | locate path => exact s.ofQuery _ (s.shape.locate path)
  | resolve path create => cases create with
    | true => exact s.made path _
    | false => exact s.ofQuery _ (s.shape.lookup path)
  | usage =>
      have husage : w.usage = v.usage := by
        have hused : w.pool.used = v.pool.used := s.used
        rw [Volume.usage, Volume.usage, Pool.usage, Pool.usage, hused, s.capacity]
      exact s.ofQuery _ (by rw [husage])

end SameBut

/-! ## Runs -/

/-- What operations in order give, whether they succeed or fail. -/
def answers (v : Volume) : List Op → List (Except FsError Answer)
  | [] => []
  | op :: ops => (op.run v).1 :: answers (op.run v).2 ops

/-- Other octets for a file, as many as it has. -/
theorem sameBut_modify {c : Bytes} (hu : f < v.used) (hf : (v.node f).isFile = true)
    (hc : c.length = (v.node f).content.length) :
    SameBut f v (v.modify f fun n => { n with body := .file c }) where
  limits := rfl
  cwd := rfl
  capacity := rfl
  used := used_modify _ _ _
  lt_used := hu
  twin := by
    have hface : { v.node f with body := .file (v.node f).content } = v.node f := by
      rw [← body_of_isFile hf]
    have t := Node.Twin.intro (v.node f) _ c hc
    rw [hface] at t
    rwa [node_modify_self hu]
  other := fun i hi => node_modify_ne hi _

/-- **Secrecy**: two volumes that differ only in the octets of one file answer
every run of operations alike, as long as the file may be neither read nor
executed when an operation starts, and end up different in those octets only. -/
theorem sealed_content_does_not_leak (s : SameBut f v w) (ops : List Op)
    (hf : ∀ k, k < ops.length → ((v.runAll (ops.take k)).node f).isSealed = true) :
    v.answers ops = w.answers ops ∧ SameBut f (v.runAll ops) (w.runAll ops) := by
  induction ops generalizing v w with
  | nil => exact ⟨rfl, s⟩
  | cons op ops ih =>
      obtain ⟨hanswer, hs⟩ := s.run (hf 0 (Nat.succ_pos _)) op
      obtain ⟨hanswers, hlast⟩ := ih hs fun k hk => hf (k + 1) (Nat.succ_lt_succ hk)
      exact ⟨by rw [answers, answers, hanswer, hanswers], hlast⟩

/-- Two keys of three octets in a file that may be written only: neither reading,
running, inspecting nor listing tells them apart, up to the moment that the file
may be read. -/
theorem sealed_content_does_not_leak_to_readers :
    ∃ fresh, format {} = .ok fresh ∧ ∃ v w,
      v = fresh.runAll [.touch "k".toList, .write "k".toList "key".toList, .chmod "k".toList 2] ∧
      w = v.modify 6 (fun n => { n with body := .file (Text.encode "pin".toList) }) ∧
      v ≠ w ∧ ∃ ops : List Op,
        ops = [.cat "k".toList, .executable "k".toList, .stat "k".toList, .ls [] true,
          .touch "k".toList, .mkdir "d".toList, .chmod "k".toList 4] ∧
        (v.answers ops = w.answers ops ∧ SameBut 6 (v.runAll ops) (w.runAll ops)) ∧
        ((v.runAll ops).cat "k".toList).toOption ≠ ((w.runAll ops).cat "k".toList).toOption := by
  refine ⟨_, rfl, _, _, rfl, rfl, by decide +kernel, _, rfl, ?_⟩
  refine ⟨sealed_content_does_not_leak (sameBut_modify ?_ ?_ ?_) _ ?_, ?_⟩ <;> decide +kernel

end Volume

end RamFs
