import Threadstat.State
import Threadstat.Poll

/-!
# Messages and handlers

The wrapper library sends `struct message` through a POSIX message queue.  `queueHandler` takes
one message off the queue and opens or closes its thread; the timer's handler flushes everything.
What `mq_receive` and the timer answer are arguments.
-/

namespace Threadstat

open WordBytes

structure Message where
  tid : Pid
  flags : UInt32
  deriving DecidableEq

def MESSAGE_FLAG_ADD_PROCESS : UInt32 := 1
def MESSAGE_FLAG_REMOVE_PROCESS : UInt32 := 2

namespace Message

def size : Nat := 8

def toBytes (e : Endian) (msg : Message) : List UInt8 :=
  encode32 e msg.tid.toUInt32 ++ encode32 e msg.flags

def ofBytes (e : Endian) (bs : List UInt8) : Message where
  tid := (decode32 e (bs.take 4)).toInt32
  flags := decode32 e (bs.drop 4)

@[simp] theorem length_toBytes (e : Endian) (msg : Message) : (msg.toBytes e).length = size := by
  simp [toBytes, size]

@[simp] theorem ofBytes_toBytes (e : Endian) (msg : Message) : ofBytes e (msg.toBytes e) = msg := by
  have htake : (msg.toBytes e).take 4 = encode32 e msg.tid.toUInt32 :=
    List.take_left' (length_encode32 e _)
  have hdrop : (msg.toBytes e).drop 4 = encode32 e msg.flags :=
    List.drop_left' (length_encode32 e _)
  simp [ofBytes, htake, hdrop]

end Message

inductive MessageFlag where
  | AddProcess
  | RemoveProcess
  deriving DecidableEq, Repr

structure ThreadstatMessage where
  tid : Pid
  flag : MessageFlag
  deriving DecidableEq

structure UnknownFlag where
  flags : UInt32
  deriving DecidableEq

def ThreadstatMessage.tryFrom (msg : Message) : Except UnknownFlag ThreadstatMessage :=
  if msg.flags = MESSAGE_FLAG_ADD_PROCESS then .ok ⟨msg.tid, .AddProcess⟩
  else if msg.flags = MESSAGE_FLAG_REMOVE_PROCESS then .ok ⟨msg.tid, .RemoveProcess⟩
  else .error ⟨msg.flags⟩

inductive MQError where
  | io (e : IoError)
  | WrongSize

/-- `MQueueReader::read`, where `answer` is what `mq_receive` put in the buffer. -/
def MQueueReader.read (e : Endian) (answer : Except IoError (List UInt8)) :
    Except MQError Message :=
  match answer with
  | .error err => .error (.io err)
  | .ok bs => if bs.length = Message.size then .ok (.ofBytes e bs) else .error .WrongSize

variable (env : Env)

def queueHandler (answer : Except IoError (List UInt8)) (w : World) :
    Except IoError PollAction × World :=
  match MQueueReader.read env.endian answer with
  | .ok raw =>
    match ThreadstatMessage.tryFrom raw with
    | .ok msg =>
      match msg.flag with
      | .AddProcess => (.ok .Continue, w.openTid env msg.tid)
      | .RemoveProcess => (.ok .Continue, w.closeTid env msg.tid)
    | .error _ => (.ok .Continue, w)
  | .error _ => (.ok .Continue, w)

/-- The closure `main` registers for the flush timer, where `expirations` is what `read` on the
timer returned. -/
def timerHandler (expirations : Except IoError UInt64) (w : World) :
    Except IoError PollAction × World :=
  match expirations with
  | .error e => (.error e, w)
  | .ok _ => (.ok .Continue, w.flushAll env)

end Threadstat
