import Xv6Rcu.Rcu.Grace
import Xv6Rcu.Rcu.Reader
import Xv6Rcu.Proc.Update
import Xv6Rcu.Proc.Resume
import Xv6Rcu.Proc.Wakeup
import Xv6Rcu.Proc.Coherence
import Xv6Rcu.Proc.Ident
import Xv6Rcu.Proc.Agree
import Xv6Rcu.Fs.Full
import Xv6Rcu.Fs.Transparent
import Xv6Rcu.Fs.Budget
import Xv6Rcu.Mem.Preempt
import Xv6Rcu.Mem.Exhaust
import Xv6Rcu.Dev.PipeRead
import Xv6Rcu.Dev.Console
import Xv6Rcu.Dev.Protocol
import Xv6Rcu.Fs.FileCalls
import Xv6Rcu.Fs.Orphan
import Xv6Rcu.Proc.Signal
import Xv6Rcu.Proc.Nesting
import Xv6Rcu.Sh.Grammar
import Xv6Rcu.Proc.Wait
import Xv6Rcu.Mem.UserCopy
import Xv6Rcu.Mem.Copy
import Xv6Rcu.Mem.Teardown
import Xv6Rcu.Proc.Fork
import Xv6Rcu.User.Grep
import Xv6Rcu.Fs.Path
