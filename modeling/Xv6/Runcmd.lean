import Xv6.FileTable
import Xv6.Proof.ShellParser

/-!
# Running a command

`runcmd` of the shell runs a command in a process of its own: it forks for the parts of the command
and moves their descriptors with `close`, `dup`, `open` and `pipe`. Every process has its own table,
so the tables do not depend on the order in which the processes run. Whether a system call at a
place of the command fails is a parameter.
-/

namespace Xv6.Sh

/-- What a descriptor leads to: something the shell was started with, a file opened for a
redirection, or an end of the pipe made at a place of the command. -/
inductive Obj
  | inherited (id : Nat)
  | file (name : List UInt8) (mode : Nat)
  | pipe (place : List Bool) (writeEnd : Bool)

abbrev Fds := Nat → Option Obj

def fdalloc (t : Fds) : Option Nat := (List.range nofile).find? fun fd => (t fd).isNone

def close (t : Fds) (fd : Nat) : Fds := Function.update t fd none

/-- A new descriptor for `o`, as in `open`, `dup` and `pipe`. -/
def install (t : Fds) (o : Obj) : Option (Nat × Fds) :=
  (fdalloc t).map fun fd => (fd, Function.update t fd (some o))

def dup (t : Fds) (fd : Nat) : Fds :=
  (((t fd).bind (install t)).map Prod.snd).getD t

/-- The read end, the write end and the table. -/
def pipe (t : Fds) (place : List Bool) : Option (Nat × Nat × Fds) :=
  (install t (.pipe place false)).bind fun r =>
    (install r.2 (.pipe place true)).map fun w => (r.1, w.1, w.2)

inductive Call
  | fork
  | forkRight
  | pipe
  | openFile

/-- The calls of `exec`, with the arguments and the descriptors of the process. A process that
cannot go on exits. -/
def runcmd (ok : List Bool → Call → Bool) : Node → List Bool → Fds → List (List (List UInt8) × Fds)
  | .exec argv, _, t => if argv = [] then [] else [(argv, t)]
  | .redir cmd file mode fd, place, t =>
    if ok place .openFile then
      match install (close t fd) (.file file mode) with
      | none => []
      | some (_, t1) => runcmd ok cmd (place ++ [false]) t1
    else []
  | .list left right, place, t =>
    if ok place .fork then
      runcmd ok left (place ++ [false]) t ++ runcmd ok right (place ++ [true]) t
    else []
  | .pipe left right, place, t =>
    if ok place .pipe then
      match pipe t place with
      | none => []
      | some (p0, p1, t1) =>
        if ok place .fork then
          runcmd ok left (place ++ [false]) (close (close (dup (close t1 1) p1) p0) p1) ++
            if ok place .forkRight then
              runcmd ok right (place ++ [true]) (close (close (dup (close t1 0) p0) p0) p1)
            else []
        else []
    else []
  | .back cmd, place, t => if ok place .fork then runcmd ok cmd (place ++ [false]) t else []

end Xv6.Sh
