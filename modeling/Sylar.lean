import Sylar.Address.Port
import Sylar.Address.Rfc4291
import Sylar.Address.IPv6Text
import Sylar.Address.Unix
import Sylar.Address.Order
import Sylar.Address.Text
import Sylar.Epoll.Growth
import Sylar.Epoll.StaleReport
import Sylar.Epoll.Readiness
import Sylar.Epoll.Waiters
import Sylar.Timer.Arming
import Sylar.Timer.Delivery
import Sylar.Timer.Report
import Sylar.Timer.Rollover
import Sylar.Scheduler.Ownership
import Sylar.Scheduler.Resumption
import Sylar.Scheduler.Pinning
import Sylar.Scheduler.Semaphore
import Sylar.Scheduler.Fifo
import Sylar.Scheduler.Shutdown
import Sylar.Wakeup.Task
import Sylar.Wakeup.IdleTimeout
import Sylar.Wakeup.Timer
import Sylar.Hook.DoIo
import Sylar.Hook.Elapsed
import Sylar.Hook.FdGet
import Sylar.Hook.GetThis
import Sylar.Hook.Nonblock
import Sylar.Hook.Recycled
import Sylar.Hook.SocketTimeout
import Sylar.Hook.Timeout
import Sylar.Hook.Connect
import Sylar.Log.FileAppender
import Sylar.Log.Grammar
import Sylar.Log.Escape
import Sylar.Log.Inherit
import Sylar.Log.Reload
import Sylar.Log.Dump
import Sylar.Log.Streams
import Sylar.Config.FromString
import Sylar.Config.LexicalCast
import Sylar.Config.Load
import Sylar.Config.Lower
import Sylar.Config.Var
import Sylar.Config.Sections
import Sylar.Sync.Races
import Sylar.Fiber.Switch
import Sylar.Thread.Join
