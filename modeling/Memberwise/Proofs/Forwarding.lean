import Mathlib
import Memberwise.Proofs.DeclaredMembers

/-!
# Members that forward their arguments

A stub stands for a function of the outside world and a remote method for a function on another
machine.  A call of either is one call of a host, whatever the host makes of it.

The holes of a template count from the receiver if there is one.  The body of a member and the frame
of its calls agree on this because both go by whether the member has a receiver.
-/

namespace Memberwise

/-! ## Calls of hosts -/

namespace Eval

variable {machine : Machine} {around : Surroundings} {frame : Frame} {s s' : Machine.State}

theorem nested_outcome {x : Eval Value} {host : Host} {call : HostCall}
    (h : x { s with depth := s.depth + 1 } =
      host.outcome call { s with depth := s.depth + 1 }) :
    nested x s = host.outcome call s := by
  rw [nested, h, Host.outcome, Host.outcome]
  obtain ⟨result, store⟩ := host s.calls call.args call.store
  cases result <;> rfl

/-- An external constructor is used like an external function. -/
theorem expr_new (function : Expr) (args : List Expr) :
    expr machine around frame (.new function args) =
      expr machine around frame (.apply function args) := by
  rw [expr, expr]

theorem expr_array {es : List Expr} {vs : List Value}
    (h : exprs machine around frame es s = .ok vs s) :
    expr machine around frame (.array es) s =
      .ok (s.store.newArray vs).1 { s with store := (s.store.newArray vs).2 } := by
  rw [expr, bind_of_ok h]
  rfl

end Eval

namespace MemberDecl

variable {machine : Machine} {around : Eval.Surroundings} {s : Machine.State} {o : Options}
  {owner : Owner} {d : MemberDecl} {receiver : Option Value} {args : List Value}

/-- The holes of the parameters hold the arguments in order. -/
theorem exprs_paramHoles (hreceiver : receiver.isSome = d.hasReceiver)
    (hargs : args.length = d.params.length) :
    Eval.exprs machine around { holes := receiver.toList ++ args } d.paramHoles s =
      .ok args s := by
  have hoffset : (if d.hasReceiver then 1 else 0) = receiver.toList.length := by
    rw [← hreceiver]
    cases receiver <;> rfl
  refine Eval.exprs_of_forall₂ (List.forall₂_iff_get.mpr ⟨by simp [paramHoles, hargs], ?_⟩)
  intro i _ hi
  simp only [paramHoles, List.get_eq_getElem, List.getElem_map, List.getElem_range, hoffset]
  refine Eval.expr_hole ?_
  rw [List.getElem?_append_right (Nat.le_add_left _ _), Nat.add_sub_cancel,
    List.getElem?_eq_getElem hi]

/-! ## Stubs -/

/-- The host that the stub of a constructor or of a static method stands for. -/
def stubTarget (owner : Owner) (d : MemberDecl) (m : Marking) : String :=
  m.name.getD (if d.form = .constructor then owner.externalName
    else owner.externalName ++ "." ++ d.name)

theorem expr_stubBody {m : Marking}
    (hform : d.form = .constructor ∨ d.form = .method ∧ d.isStatic = true) {host : Host}
    (hhost : machine.hosts.get? (d.stubTarget owner m) = some host)
    (hreceiver : receiver.isSome = d.hasReceiver) (hargs : args.length = d.params.length) :
    Eval.expr machine around { holes := receiver.toList ++ args } (d.stubBody owner m) s =
      host.outcome ⟨d.stubTarget owner m, args, s.store⟩ s := by
  have hholes : Eval.exprs machine around { holes := receiver.toList ++ args } d.paramHoles s =
      .ok args s := exprs_paramHoles hreceiver hargs
  have happly := Eval.expr_apply_host hhost hholes
  rcases hform with hform | ⟨hform, hstatic⟩
  · have hbody : d.stubBody owner m = .new (.global (d.stubTarget owner m)) d.paramHoles := by
      rw [stubBody, stubTarget, hform]
      rfl
    rw [hbody, Eval.expr_new]
    exact happly
  · have hbody : d.stubBody owner m = .apply (.global (d.stubTarget owner m)) d.paramHoles := by
      have hnone : d.hasReceiver = false := by rw [hasReceiver, hstatic]; rfl
      rw [stubBody, stubTarget, hform, hnone]
      rfl
    rw [hbody]
    exact happly

/-! ## Remote methods -/

/-- What stands in the body of a remote method after the arguments. -/
def remoteTail (policy : Option String) (hasReceiver : Bool) : List Expr :=
  match policy, hasReceiver with
  | some policy, true => [.string policy, .hole 0]
  | some policy, false => [.string policy]
  | none, true => [.undefined, .hole 0]
  | none, false => []

/-- What a remote primitive gets after the arguments: the policy, which is left out if there is
none unless a receiver follows, and the receiver. -/
def remoteExtras (policy : Option String) (receiver : Option Value) : List Value :=
  match policy, receiver with
  | some policy, some receiver => [.string policy, receiver]
  | some policy, none => [.string policy]
  | none, some receiver => [.undefined, receiver]
  | none, none => []

theorem remoteBody_eq (o : Options) (owner : Owner) (d : MemberDecl) (policy : Option String) :
    d.remoteBody o owner policy =
      .apply (.global (o.remotePrimitive (RemoteStyle.ofResult d.result).primitive))
        (.string (d.remoteHandle o owner).text :: .array d.paramHoles ::
          remoteTail policy d.hasReceiver) := by
  unfold remoteBody
  cases policy <;> cases d.hasReceiver <;> rfl

theorem exprs_remoteTail (policy : Option String) (receiver : Option Value) (args : List Value) :
    Eval.exprs machine around { holes := receiver.toList ++ args }
        (remoteTail policy receiver.isSome) s =
      .ok (remoteExtras policy receiver) s := by
  apply Eval.exprs_of_forall₂
  cases policy <;> cases receiver
  · exact .nil
  · exact .cons rfl (.cons (Eval.expr_hole rfl) .nil)
  · exact .cons rfl .nil
  · exact .cons rfl (.cons (Eval.expr_hole rfl) .nil)

/-- The array of the arguments is made before the primitive is called. -/
theorem expr_remoteBody {policy : Option String} {host : Host}
    (hhost : machine.hosts.get?
      (o.remotePrimitive (RemoteStyle.ofResult d.result).primitive) = some host)
    (hreceiver : receiver.isSome = d.hasReceiver) (hargs : args.length = d.params.length) :
    Eval.expr machine around { holes := receiver.toList ++ args } (d.remoteBody o owner policy) s =
      host.outcome
        ⟨o.remotePrimitive (RemoteStyle.ofResult d.result).primitive,
          .string (d.remoteHandle o owner).text :: (s.store.newArray args).1 ::
            remoteExtras policy receiver,
          (s.store.newArray args).2⟩ s := by
  have hholes : Eval.exprs machine around { holes := receiver.toList ++ args } d.paramHoles s =
      .ok args s := exprs_paramHoles hreceiver hargs
  have hall : Eval.exprs machine around { holes := receiver.toList ++ args }
      (.string (d.remoteHandle o owner).text :: .array d.paramHoles ::
        remoteTail policy d.hasReceiver) s =
      .ok (.string (d.remoteHandle o owner).text :: (s.store.newArray args).1 ::
        remoteExtras policy receiver) { s with store := (s.store.newArray args).2 } := by
    have hhandle : Eval.expr machine around { holes := receiver.toList ++ args }
        (.string (d.remoteHandle o owner).text) s =
          .ok (.string (d.remoteHandle o owner).text) s := rfl
    rw [Eval.exprs, Eval.bind_of_ok hhandle, Eval.exprs, bind_assoc,
      Eval.bind_of_ok (Eval.expr_array hholes), bind_assoc, ← hreceiver,
      Eval.bind_of_ok (exprs_remoteTail policy receiver args)]
    rfl
  rw [remoteBody_eq, Eval.expr_apply_host hhost hall]
  rfl

end MemberDecl

/-! ## Calls of members -/

/-- A call of a template that comes to one call of a host. -/
theorem Machine.call_forwards {machine : Machine} {ref : MethodRef} {r : Method}
    (hr : machine.lookup ref = .ok r) {receiver : Option Value} {args : List Value}
    (hframe : r.frame? receiver args = some { holes := receiver.toList ++ args })
    {s : Machine.State} (hdepth : s.depth < maxDepth) {host : Host} {call : HostCall}
    (hbody : ∀ around, Eval.expr machine around { holes := receiver.toList ++ args } r.body
      { s with depth := s.depth + 1 } = host.outcome call { s with depth := s.depth + 1 }) :
    machine.call ref receiver args s = host.outcome call s := by
  obtain ⟨around, hcall⟩ := exists_call_eq_nested hr hframe hdepth
  rw [hcall]
  exact Eval.nested_outcome (hbody around)

/-- The emitted member of a declaration that was added, where its treatment cannot fail. -/
theorem TypeHead.eq_of_mem_added {h : TypeHead} {o : Options} {m : Marking} {d : MemberDecl}
    {member emitted : Member} (hadded : (d, member) ∈ h.added o m)
    (hemit : d.emit o (h.owner m) (memberMarking m h.members d) = .ok (some emitted)) :
    member = emitted := by
  have houtcome := outcome_of_mem_added hadded
  rw [MemberDecl.outcome, hemit] at houtcome
  exact (Option.some.inj houtcome).symm

/--
A call of a stub or of a remote method is one call of a host and nothing else, also if the host
fails, and every argument reaches the host once and in order.  This holds of every declaration
whose member was added to its class, which in a build without errors are all that have these
treatments.
-/
theorem calls_forwarded_to_host {machine : Machine} {a : Assembly} {prior : Snapshot} {o : Options}
    (hbuild : machine.build = a.build prior o) {h : TypeHead} {m : Marking}
    (hregistered : .type h m ∈ a.registrants o) (hclass : h.isClass = true) {d : MemberDecl}
    {member : Member} (hadded : (d, member) ∈ h.added o m) (hname : d.NameFits)
    {receiver : Option Value} (hreceiver : receiver.isSome = d.hasReceiver) {args : List Value}
    (hargs : args.length = d.params.length) {s : Machine.State}
    (hdepth : s.depth < Machine.maxDepth) (host : Host) :
    let marking := memberMarking m h.members d
    let external := m.name.getD h.name
    (marking.treatment = some .stub →
      (d.form = .constructor ∨ d.form = .method ∧ d.isStatic = true) →
      let target := marking.name.getD
        (if d.form = .constructor then external else external ++ "." ++ d.name)
      machine.hosts.get? target = some host →
        machine.call ⟨h.id, d.signature⟩ receiver args s =
          host.outcome ⟨target, args, s.store⟩ s) ∧
    ∀ policy, marking.treatment = some (.remote policy) → d.form = .method →
      let primitive := o.remotePrimitive (RemoteStyle.ofResult d.result).primitive
      machine.hosts.get? primitive = some host →
        ∃ handle array store, member.remoteHandle? = some handle ∧
          s.store.newArray args = (array, store) ∧
          machine.call ⟨h.id, d.signature⟩ receiver args s =
            host.outcome
              ⟨primitive, .string handle.text :: array :: MemberDecl.remoteExtras policy receiver,
                store⟩ s := by
  dsimp only
  constructor
  · intro htreatment hform hhost
    have hemit : d.emit o (h.owner m) (memberMarking m h.members d) =
        .ok (some (d.emittedAs (memberMarking m h.members d) .stub
          (d.stubBody (h.owner m) (memberMarking m h.members d)))) := by
      rw [MemberDecl.emit, htreatment]
      rfl
    obtain rfl := TypeHead.eq_of_mem_added hadded hemit
    have hlookup := Machine.lookup_added hbuild hregistered hclass hadded hname
    exact Machine.call_forwards hlookup rfl hdepth fun around =>
      MemberDecl.expr_stubBody hform hhost hreceiver hargs
  · intro policy htreatment hform hhost
    have hemit : d.emit o (h.owner m) (memberMarking m h.members d) =
        .ok (some (d.emittedAs (memberMarking m h.members d)
          (.remote (RemoteStyle.ofResult d.result) (d.remoteHandle o (h.owner m)))
          (d.remoteBody o (h.owner m) policy))) := by
      rw [MemberDecl.emit, htreatment]
      simp only [MemberDecl.checkSlot, Treatment.needsKnownTarget, MemberDecl.kindAndBody, hform]
      rfl
    obtain rfl := TypeHead.eq_of_mem_added hadded hemit
    have hlookup := Machine.lookup_added hbuild hregistered hclass hadded hname
    refine ⟨d.remoteHandle o (h.owner m), _, _, ?_, rfl, ?_⟩
    · rw [MemberDecl.emittedAs, MemberDecl.emitted, hform]
      rfl
    · exact Machine.call_forwards hlookup rfl hdepth fun around =>
        MemberDecl.expr_remoteBody hhost hreceiver hargs

def deskNew : MemberDecl := .constructor [⟨"width", Ty.int32⟩]

def deskLog : MemberDecl :=
  { MemberDecl.method "Log" [⟨"level", Ty.int32⟩, ⟨"code", Ty.int32⟩] Ty.void with
    modifiers := { isStatic := true } }

def deskMove : MemberDecl :=
  { MemberDecl.method "Move" [⟨"x", Ty.int32⟩, ⟨"y", Ty.int32⟩] Ty.int32 with
    attributes := [.remote none] }

/-- Nothing comes back, so the call is only sent. -/
def deskSave : MemberDecl :=
  { MemberDecl.method "Save" [⟨"slot", Ty.int32⟩] Ty.void with
    modifiers := { isStatic := true }, attributes := [.remote (some "retry")] }

/-- The result comes later. -/
def deskFind : MemberDecl :=
  { MemberDecl.method "Find" [] ⟨"Microsoft.FSharp.Control.FSharpAsync`1", [Ty.int32]⟩ with
    attributes := [.remote none] }

/-- A stub under another name that passes its treatment on to a constructor and a static method,
with remote methods in three styles. -/
def deskHead : TypeHead where
  name := "Desk"
  form := .ordinary
  attributes := [.stub, .name "desk"]
  members := [deskNew, deskLog, deskMove, deskSave, deskFind]

def deskAssembly : Assembly where
  name := "Desk"
  files := [{ path := "desk", types := [⟨deskHead, []⟩] }]

/-- A host that answers with the last of its arguments. -/
def lastArgument : Host := fun _ args store => (.ok (args.getLastD .undefined), store)

def deskMachine : Machine where
  build := deskAssembly.build {} {}
  hosts := ⟨["desk", "desk.Log", "Remoting.Call", "Remoting.Send", "Remoting.Async"].map
    fun name => (name, lastArgument)⟩

theorem desk_calls_forwarded :
    .type deskHead (.within {} deskHead.attributes) ∈ deskAssembly.registrants {} ∧
      deskMachine.call ⟨deskHead.id, deskNew.signature⟩ none [.int 120] {} =
        .ok (.int 120) { calls := [⟨"desk", [.int 120], {}⟩] } ∧
      deskMachine.call ⟨deskHead.id, deskLog.signature⟩ none [.int 1, .int 7] {} =
        .ok (.int 7) { calls := [⟨"desk.Log", [.int 1, .int 7], {}⟩] } ∧
      (∃ handle : RemoteHandle,
        deskMachine.call ⟨deskHead.id, deskMove.signature⟩ (some (.object 0)) [.int 3, .int 4] {} =
          .ok (.object 0) {
            store := { arrays := #[[.int 3, .int 4]] }
            calls := [⟨"Remoting.Call", [.string handle.text, .array 0, .undefined, .object 0],
              { arrays := #[[.int 3, .int 4]] }⟩] }) ∧
      (∃ handle : RemoteHandle,
        deskMachine.call ⟨deskHead.id, deskSave.signature⟩ none [.int 2] {} =
          .ok (.string "retry") {
            store := { arrays := #[[.int 2]] }
            calls := [⟨"Remoting.Send", [.string handle.text, .array 0, .string "retry"],
              { arrays := #[[.int 2]] }⟩] }) ∧
      ∃ handle : RemoteHandle,
        deskMachine.call ⟨deskHead.id, deskFind.signature⟩ (some (.object 0)) [] {} =
          .ok (.object 0) {
            store := { arrays := #[[]] }
            calls := [⟨"Remoting.Async", [.string handle.text, .array 0, .undefined, .object 0],
              { arrays := #[[]] }⟩] } := by
  have hbuild : deskMachine.build = deskAssembly.build {} {} := rfl
  have hregistered : .type deskHead (.within {} deskHead.attributes) ∈
      deskAssembly.registrants {} := List.mem_cons_self
  have hdepth : ({} : Machine.State).depth < Machine.maxDepth := by decide
  have hadded {d : MemberDecl} (hd : d ∈ deskHead.members) : ∃ member,
      (d, member) ∈ deskHead.added {} (.within {} deskHead.attributes) := by
    have hall : (deskHead.added {} (.within {} deskHead.attributes)).map Prod.fst =
      deskHead.members := rfl
    rw [← hall] at hd
    obtain ⟨p, hp, rfl⟩ := List.mem_map.mp hd
    exact ⟨p.2, hp⟩
  obtain ⟨_, hnew⟩ := hadded (show deskNew ∈ _ by simp [deskHead])
  obtain ⟨_, hlog⟩ := hadded (show deskLog ∈ _ by simp [deskHead])
  obtain ⟨_, hmove⟩ := hadded (show deskMove ∈ _ by simp [deskHead])
  obtain ⟨_, hsave⟩ := hadded (show deskSave ∈ _ by simp [deskHead])
  obtain ⟨_, hfind⟩ := hadded (show deskFind ∈ _ by simp [deskHead])
  have hmakes : deskMachine.call ⟨deskHead.id, deskNew.signature⟩ none [.int 120] {} =
      lastArgument.outcome ⟨"desk", [.int 120], {}⟩ {} :=
    (calls_forwarded_to_host hbuild hregistered rfl hnew (by decide) rfl rfl hdepth
      lastArgument).1 rfl (.inl rfl) rfl
  have hlogs : deskMachine.call ⟨deskHead.id, deskLog.signature⟩ none [.int 1, .int 7] {} =
      lastArgument.outcome ⟨"desk.Log", [.int 1, .int 7], {}⟩ {} :=
    (calls_forwarded_to_host hbuild hregistered rfl hlog (by decide) rfl rfl hdepth
      lastArgument).1 rfl (.inr ⟨rfl, rfl⟩) rfl
  have hinstance : (some (Value.object 0)).isSome = true := rfl
  have hstatic : (none : Option Value).isSome = false := rfl
  obtain ⟨moving, array, store, -, harray, hmoves⟩ :=
    (calls_forwarded_to_host hbuild hregistered rfl hmove (by decide) hinstance
      (show [Value.int 3, .int 4].length = 2 from rfl) hdepth lastArgument).2 none rfl rfl rfl
  obtain ⟨rfl, rfl⟩ := Prod.mk.inj harray
  obtain ⟨saving, array, store, -, harray, hsaves⟩ :=
    (calls_forwarded_to_host hbuild hregistered rfl hsave (by decide) hstatic
      (show [Value.int 2].length = 1 from rfl) hdepth lastArgument).2 (some "retry") rfl rfl rfl
  obtain ⟨rfl, rfl⟩ := Prod.mk.inj harray
  obtain ⟨finding, array, store, -, harray, hfinds⟩ :=
    (calls_forwarded_to_host hbuild hregistered rfl hfind (by decide) hinstance
      (show ([] : List Value).length = 0 from rfl) hdepth lastArgument).2 none rfl rfl rfl
  obtain ⟨rfl, rfl⟩ := Prod.mk.inj harray
  exact ⟨hregistered, hmakes, hlogs, ⟨moving, hmoves⟩, ⟨saving, hsaves⟩, finding, hfinds⟩

end Memberwise
